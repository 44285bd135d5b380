import Bitmigo.Store.Coin
import Mathlib.Data.List.Pairwise

/-
  The record of what connecting a block destroyed.

  Key definitions include:
    * `UndoRecord`, its `encode`, its `decode` and its `resolve`
    * `EntriesWord`, bytes of a list of coins
    * `MeetsTallCoin`, bytes that begin like a record up to a coin too high for a `Height`

  Key theorems include:
    * `readEntries_eq_ok` and `readEntries_panics`
    * `UndoRecord.readsSafely_iff`, the reader aborts exactly on those
    * `UndoRecord.record_exact`, a record is read back as it was written

  The record holds two lists of coins, one after the other. They differ in what stands before a
  coin: the input that spent it, in ascending order, or the outpoint it is at.
-/

namespace Bitmigo

open Result List StoreReader

variable {ε κ : Type} (A : Arith) {bytes rest : Bytes}

variable {entries : List (κ × StoredCoin)} {previous : Option κ}

/- A coin and the position of the input that spent it. -/
abbrev UndoCoin := UInt32 × StoredCoin

structure UndoRecord where
  spent : List UndoCoin
  overwritten : List (OutPoint × StoredCoin)
  deriving DecidableEq

variable {record : UndoRecord}

--------
-- Counts
--------

/- A count, refused before anything is reserved for it. -/
def StoreReader.count (limit : Nat) : StoreReader Nat := do
  let declared ← varint A
  if limit < declared then
    Program.fail (.tooLong declared limit)
  else
    return declared

theorem count_eq_ok {limit declared : Nat} (hLimit : limit < 2 ^ 64) :
    count A limit bytes = (.ok declared, rest) ↔
      declared ≤ limit ∧ bytes = varintBytes declared ++ rest := by
  simp only [StoreReader.count, Program.bind_eq_ok, varint_eq_ok]
  constructor
  · rintro ⟨_, _, ⟨_, rfl⟩, hRead⟩
    split at hRead
    · exact absurd hRead Program.fail_ne_ok
    · rcases Program.pure_eq_ok.mp hRead with ⟨rfl, rfl⟩
      exact ⟨by omega, rfl⟩
  · rintro ⟨hSmall, rfl⟩
    refine ⟨declared, rest, ⟨by omega, rfl⟩, ?_⟩
    rw [if_neg (by omega), Program.pure_eq_ok]
    exact ⟨rfl, rfl⟩

theorem count_neverPanics (limit : Nat) : (count A limit).NeverPanics :=
  .bind (varintFrom_neverPanics A 10 0) fun _ =>
    .ite (Program.neverPanics_fail _) (Program.neverPanics_pure _)

/- The outpoints a block spends, the coinbase's left out. -/
def Block.spends (block : Block) : List OutPoint :=
  (block.txdata.drop 1).flatMap fun tx => tx.input.map (·.previousOutput)

namespace UndoRecord

def maxBlockInputs : Nat := maxBlockWeight / witnessScaleFactor / 41
def maxBlockOutputs : Nat := maxBlockWeight / witnessScaleFactor / 9

/- One coin at its largest. -/
def maxCoinBytes : Nat := 5 + 9 + 3 + maxScriptSize

/- The largest undo record consensus permits. -/
def maxUndoRecordBytes : UInt32 :=
  UInt32.ofNat (5 + maxBlockInputs * (3 + maxCoinBytes) + 5 + maxBlockOutputs * (36 + maxCoinBytes))

theorem maxBlockInputs_lt : maxBlockInputs < 2 ^ 64 := by decide

theorem maxBlockOutputs_lt : maxBlockOutputs < 2 ^ 64 := by decide

--------
-- Lists of Coins
--------

/- The loops of the decoder: a key that may depend on the one before it, and a coin. -/
def readEntries (readKey : Option κ → StoreReader κ) :
    Nat → Option κ → StoreReader (List (κ × StoredCoin))
  | 0, _ => return []
  | turns + 1, previous => do
    let key ← readKey previous
    let coin ← readCoin A
    let others ← readEntries readKey turns (some key)
    return (key, coin) :: others

/- The loops of the encoder. -/
def putEntries (putKey : κ → Result ε Bytes) (entries : List (κ × StoredCoin)) :
    Result ε Bytes := do
  let words ← entries.mapM fun entry => do
    let key ← putKey entry.1
    let coin ← putCoin A entry.2
    return key ++ coin
  return words.flatten

/- The position of an input, above the one before it. -/
def readInput (previous : Option UInt32) : StoreReader UInt32 := do
  let declared ← StoreReader.count A maxBlockInputs
  let input := clampU32 declared
  if previous.any (input ≤ ·) then
    Program.fail (.notAscending input)
  else
    return input

def readOutPoint : StoreReader OutPoint := do
  let txid ← StoreReader.hash
  let vout ← u32Le
  return ⟨txid, vout⟩

/- The bytes of some coins behind their keys. -/
inductive EntriesWord (keyBytes : κ → Bytes) : List (κ × CoinFields) → Bytes → Prop where
  | nil : EntriesWord keyBytes [] []
  | cons {key : κ} {fields : CoinFields} {entries : List (κ × CoinFields)} {word more : Bytes}
      (hCoin : CoinWord fields word) (hMore : EntriesWord keyBytes entries more) :
      EntriesWord keyBytes ((key, fields) :: entries) (keyBytes key ++ (word ++ more))

/- The entries as their bytes tell them. -/
def loosen (entries : List (κ × StoredCoin)) : List (κ × CoinFields) :=
  entries.map fun entry => (entry.1, entry.2.fields)

theorem EntriesWord.bounded {keyBytes : κ → Bytes} {word : Bytes}
    (hWord : EntriesWord keyBytes (loosen entries) word) {coin : StoredCoin}
    (hCoin : coin ∈ entries.map Prod.snd) :
    coin.output.value.toNat ≤ maxMoney ∧ coin.output.scriptPubkey.length ≤ maxScriptSize := by
  induction entries generalizing word with
  | nil => cases hCoin
  | cons entry entries ih =>
    cases hWord with
    | cons hFst hMore =>
      rcases mem_cons.mp hCoin with rfl | hLater
      · exact hFst.bounded
      · exact ih hMore hLater

/- Each key may follow the one before it. -/
def Keyed (Follows : Option κ → κ → Prop) : Option κ → List κ → Prop
  | _, [] => True
  | previous, key :: keys => Follows previous key ∧ Keyed Follows (some key) keys

/- A coin too high for a `Height`. -/
def TallAmong (entries : List (κ × CoinFields)) : Prop :=
  ∃ entry ∈ entries, 0x7fffffff < entry.2.height

section

variable {Follows : Option κ → κ → Prop} {keyBytes : κ → Bytes} {readKey : Option κ → StoreReader κ}

/- The reader takes the bytes of a key that may follow. -/
def Reads (readKey : Option κ → StoreReader κ) (Follows : Option κ → κ → Prop)
    (keyBytes : κ → Bytes) : Prop :=
  ∀ previous bytes,
    ¬ (readKey previous bytes).1.Panics ∧
      ∀ key rest, readKey previous bytes = (.ok key, rest) ↔
        Follows previous key ∧ bytes = keyBytes key ++ rest

theorem readEntries_eq_ok (hReads : Reads readKey Follows keyBytes) {turns : Nat} :
    readEntries A readKey turns previous bytes = (.ok entries, rest) ↔
      entries.length = turns ∧ Keyed Follows previous (entries.map Prod.fst) ∧
        ∃ word, EntriesWord keyBytes (loosen entries) word ∧ bytes = word ++ rest := by
  induction turns generalizing previous bytes entries with
  | zero =>
    simp only [readEntries, Program.pure_eq_ok, length_eq_zero_iff]
    constructor
    · rintro ⟨rfl, rfl⟩
      exact ⟨rfl, trivial, [], .nil, rfl⟩
    · rintro ⟨rfl, _, _, ⟨⟩, rfl⟩
      exact ⟨rfl, rfl⟩
  | succ turns ih =>
    simp only [readEntries, Program.bind_eq_ok, Program.pure_eq_ok, (hReads _ _).2, readCoin_eq_ok]
    constructor
    · rintro ⟨key, _, ⟨hFollows, rfl⟩, coin, _, ⟨word, hCoin, rfl⟩, others, _, hOthers, rfl, rfl⟩
      rcases ih.mp hOthers with ⟨rfl, hKeyed, more, hMore, rfl⟩
      exact ⟨rfl, ⟨hFollows, hKeyed⟩, _, .cons hCoin hMore, by simp⟩
    · rintro ⟨hLen, hKeyed, _, hWord, rfl⟩
      rcases entries with _ | ⟨⟨key, coin⟩, others⟩
      · cases hLen
      cases hWord with
      | @cons _ _ _ word more hCoin hMore =>
        exact ⟨key, word ++ (more ++ rest), ⟨hKeyed.1, by simp⟩, coin, _, ⟨_, hCoin, rfl⟩, others,
          rest, ih.mpr ⟨Nat.succ.inj hLen, hKeyed.2, _, hMore, rfl⟩, rfl, rfl⟩

/- The loop panics where the entries it reaches have a coin that is too high. -/
theorem readEntries_panics (hReads : Reads readKey Follows keyBytes) {turns : Nat} :
    (readEntries A readKey turns previous bytes).1.Panics ↔
      ∃ entries word rest, entries.length ≤ turns ∧ Keyed Follows previous (entries.map Prod.fst) ∧
        EntriesWord keyBytes entries word ∧ TallAmong entries ∧ bytes = word ++ rest := by
  induction turns generalizing previous bytes with
  | zero =>
    refine iff_of_false (by rintro ⟨⟩) ?_
    rintro ⟨entries, _, _, hLen, _, _, ⟨entry, hEntry, _⟩, _⟩
    rw [Nat.le_zero.mp hLen |> length_eq_zero_iff.mp] at hEntry
    cases hEntry
  | succ turns ih =>
    rw [readEntries, Program.bind_panics, or_iff_right (hReads _ _).1]
    constructor
    · rintro ⟨key, _, hKey, hPanics⟩
      rcases ((hReads _ _).2 _ _).mp hKey with ⟨hFollows, rfl⟩
      rcases Program.bind_panics.mp hPanics with hCoin | ⟨coin, _, hCoin, hLater⟩
      · rcases (readCoin_panics A).mp hCoin with ⟨fields, word, rest, hWord, hTall, rfl⟩
        exact ⟨[(key, fields)], _, rest, by simp, ⟨hFollows, trivial⟩, .cons hWord .nil,
          ⟨_, mem_singleton_self _, hTall⟩, by simp⟩
      · rcases (readCoin_eq_ok A).mp hCoin with ⟨word, hWord, rfl⟩
        rcases Program.bind_panics.mp hLater with hOthers | ⟨_, _, _, ⟨⟩⟩
        rcases ih.mp hOthers with
          ⟨entries, more, rest, hLen, hKeyed, hMore, ⟨entry, hEntry, hTall⟩, rfl⟩
        exact ⟨(key, coin.fields) :: entries, _, rest, Nat.succ_le_succ hLen,
          ⟨hFollows, hKeyed⟩, .cons hWord hMore, ⟨entry, mem_cons_of_mem _ hEntry, hTall⟩,
          by simp⟩
    · rintro ⟨_, _, rest, hLen, hKeyed, hWord, ⟨entry, hEntry, hTall⟩, rfl⟩
      cases hWord with
      | nil => cases hEntry
      | @cons key fields entries word more hCoin hMore =>
        refine ⟨key, word ++ (more ++ rest),
          ((hReads _ _).2 _ _).mpr ⟨hKeyed.1, by simp⟩, Program.bind_panics.mpr ?_⟩
        by_cases hHigh : 0x7fffffff < fields.height
        · exact .inl ((readCoin_panics A).mpr ⟨fields, word, _, hCoin, hHigh, rfl⟩)
        · have hOthers : entry ∈ entries := by
            rcases mem_cons.mp hEntry with rfl | hOthers
            · exact absurd hTall hHigh
            · exact hOthers
          refine .inr ⟨⟨⟨fields.height, Nat.not_lt.mp hHigh⟩, fields.coinbase, fields.output⟩,
            more ++ rest, (readCoin_eq_ok A).mpr ⟨word, hCoin, rfl⟩, ?_⟩
          exact Program.bind_panics.mpr (.inl (ih.mpr ⟨entries, more, rest,
            Nat.le_of_succ_le_succ hLen, hKeyed.2, hMore, ⟨entry, hOthers, hTall⟩, rfl⟩))

/- Coins within their bounds are written. -/
theorem putEntries_eq_ok {putKey : κ → Result ε Bytes}
    (hKeys : ∀ entry ∈ entries, putKey entry.1 = .ok (keyBytes entry.1))
    (hCoins : ∀ entry ∈ entries, entry.2.output.value.toNat ≤ maxMoney ∧
      entry.2.output.scriptPubkey.length ≤ maxScriptSize) :
    ∃ word, putEntries A putKey entries = .ok word ∧
      EntriesWord keyBytes (loosen entries) word := by
  induction entries with
  | nil => exact ⟨[], rfl, .nil⟩
  | cons entry entries ih =>
    rcases forall_mem_cons.mp hKeys with ⟨hKey, hKeys⟩
    rcases forall_mem_cons.mp hCoins with ⟨hCoin, hCoins⟩
    rcases ih hKeys hCoins with ⟨more, hMore, hWord⟩
    rcases putCoin_eq_ok (ε := ε) A hCoin.1 hCoin.2 with ⟨word, hPut, hFst⟩
    refine ⟨_, ?_, .cons hFst hWord⟩
    rcases bind_eq_ok.mp hMore with ⟨words, hWords, hFlat⟩
    cases hFlat
    rw [putEntries, mapM_cons, hKey, ok_bind, hPut, ok_bind, pure_eq_ok, ok_bind, hWords]
    simp

--------
-- Counted Lists
--------

/- A list of coins behind their number. -/
def readList (limit : Nat) (readKey : Option κ → StoreReader κ) :
    StoreReader (List (κ × StoredCoin)) := do
  let count ← StoreReader.count A limit
  readEntries A readKey count none

def putList (putKey : κ → Result ε Bytes) (entries : List (κ × StoredCoin)) :
    Result ε Bytes := do
  let count ← putVarint A entries.length
  let body ← putEntries A putKey entries
  return count ++ body

/- The bytes of a whole list. -/
def ListWord (limit : Nat) (Follows : Option κ → κ → Prop) (keyBytes : κ → Bytes)
    (entries : List (κ × StoredCoin)) (word : Bytes) : Prop :=
  entries.length ≤ limit ∧ Keyed Follows none (entries.map Prod.fst) ∧
    ∃ body, EntriesWord keyBytes (loosen entries) body ∧
      word = varintBytes entries.length ++ body

/- The bytes begin like a list and reach a coin that is too high. -/
def TallStart (limit : Nat) (Follows : Option κ → κ → Prop) (keyBytes : κ → Bytes)
    (bytes : Bytes) : Prop :=
  ∃ count ≤ limit, ∃ entries body rest, entries.length ≤ count ∧
    Keyed Follows none (entries.map Prod.fst) ∧ EntriesWord keyBytes entries body ∧
    TallAmong entries ∧ bytes = varintBytes count ++ (body ++ rest)

theorem TallStart.append {limit : Nat} (more : Bytes)
    (hTall : TallStart limit Follows keyBytes bytes) :
    TallStart limit Follows keyBytes (bytes ++ more) := by
  rcases hTall with ⟨count, hCount, entries, body, rest, hLen, hKeyed, hBody, hTall, rfl⟩
  exact ⟨count, hCount, entries, body, rest ++ more, hLen, hKeyed, hBody, hTall, by simp⟩

variable {limit : Nat} (hLimit : limit < 2 ^ 64)

include hLimit

theorem readList_eq_ok (hReads : Reads readKey Follows keyBytes) :
    readList A limit readKey bytes = (.ok entries, rest) ↔
      ∃ word, ListWord limit Follows keyBytes entries word ∧ bytes = word ++ rest := by
  simp only [readList, Program.bind_eq_ok, count_eq_ok A hLimit]
  constructor
  · rintro ⟨count, _, ⟨hCount, rfl⟩, hEntries⟩
    rcases (readEntries_eq_ok A hReads).mp hEntries with ⟨rfl, hKeyed, body, hBody, rfl⟩
    exact ⟨_, ⟨hCount, hKeyed, body, hBody, rfl⟩, by simp⟩
  · rintro ⟨_, ⟨hCount, hKeyed, body, hBody, rfl⟩, rfl⟩
    exact ⟨entries.length, body ++ rest, ⟨hCount, by simp⟩,
      (readEntries_eq_ok A hReads).mpr ⟨rfl, hKeyed, body, hBody, rfl⟩⟩

theorem readList_panics (hReads : Reads readKey Follows keyBytes) :
    (readList A limit readKey bytes).1.Panics ↔ TallStart limit Follows keyBytes bytes := by
  rw [readList, Program.bind_panics, or_iff_right (count_neverPanics A _ bytes)]
  simp only [count_eq_ok A hLimit]
  constructor
  · rintro ⟨count, _, ⟨hCount, rfl⟩, hPanics⟩
    rcases (readEntries_panics A hReads).mp hPanics with
      ⟨entries, body, rest, hLen, hKeyed, hBody, hTall, rfl⟩
    exact ⟨count, hCount, entries, body, rest, hLen, hKeyed, hBody, hTall, rfl⟩
  · rintro ⟨count, hCount, entries, body, rest, hLen, hKeyed, hBody, hTall, rfl⟩
    exact ⟨count, body ++ rest, ⟨hCount, rfl⟩,
      (readEntries_panics A hReads).mpr ⟨entries, body, rest, hLen, hKeyed, hBody, hTall, rfl⟩⟩

theorem putList_eq_ok {putKey : κ → Result ε Bytes} {entries : List (κ × StoredCoin)}
    (hLen : entries.length ≤ limit) (hKeyed : Keyed Follows none (entries.map Prod.fst))
    (hKeys : ∀ entry ∈ entries, putKey entry.1 = .ok (keyBytes entry.1))
    (hCoins : ∀ entry ∈ entries, entry.2.output.value.toNat ≤ maxMoney ∧
      entry.2.output.scriptPubkey.length ≤ maxScriptSize) :
    ∃ word, putList A putKey entries = .ok word ∧ ListWord limit Follows keyBytes entries word := by
  rcases putEntries_eq_ok A hKeys hCoins with ⟨body, hPut, hBody⟩
  refine ⟨_, ?_, hLen, hKeyed, body, hBody, rfl⟩
  rw [putList, putVarint_eq A (by omega), ok_bind, hPut]
  rfl

end

--------
-- Keys
--------

/- The input comes after the one before it. -/
def InputFollows (previous : Option UInt32) (input : UInt32) : Prop :=
  (∀ last ∈ previous, last < input) ∧ input.toNat ≤ maxBlockInputs

theorem reads_readInput :
    Reads (readInput A) InputFollows fun input => varintBytes input.toNat := by
  intro previous bytes
  constructor
  · exact Program.NeverPanics.bind (count_neverPanics A _) (fun _ =>
      .ite (Program.neverPanics_fail _) (Program.neverPanics_pure _)) bytes
  intro input rest
  simp only [readInput, Program.bind_eq_ok, count_eq_ok A maxBlockInputs_lt]
  constructor
  · rintro ⟨declared, _, ⟨hSmall, rfl⟩, hRead⟩
    have hClamp : (clampU32 declared).toNat = declared := by
      have hWide : maxBlockInputs < 2 ^ 32 - 1 := by decide
      rw [toNat_clampU32, min_eq_left (by omega)]
    split at hRead
    · exact absurd hRead Program.fail_ne_ok
    case isFalse hAfter =>
      rcases Program.pure_eq_ok.mp hRead with ⟨rfl, rfl⟩
      refine ⟨⟨?_, by rwa [hClamp]⟩, by rw [hClamp]⟩
      rintro last rfl
      simpa using hAfter
  · rintro ⟨⟨hAfter, hSmall⟩, rfl⟩
    have hClamp : clampU32 input.toNat = input := by
      apply UInt32.toNat_inj.mp
      rw [toNat_clampU32, min_eq_left (Nat.le_sub_one_of_lt input.toNat_lt)]
    refine ⟨input.toNat, rest, ⟨hSmall, rfl⟩, ?_⟩
    rw [hClamp, if_neg, Program.pure_eq_ok]
    · exact ⟨rfl, rfl⟩
    · rcases previous with _ | last
      · simp
      · simpa using hAfter last rfl

/- Ascending inputs are those that each come after the one before. -/
theorem keyed_inputFollows_iff {previous : Option UInt32} {inputs : List UInt32} :
    Keyed InputFollows previous inputs ↔ (previous.toList ++ inputs).Pairwise (· < ·) ∧
      ∀ input ∈ inputs, input.toNat ≤ maxBlockInputs := by
  induction inputs generalizing previous with
  | nil => cases previous <;> simp [Keyed]
  | cons input inputs ih =>
    rw [Keyed, ih, InputFollows, forall_mem_cons]
    rcases previous with _ | last
    · simp [and_left_comm]
    · simp only [Option.toList, cons_append, nil_append,
        pairwise_cons_cons_iff_of_trans, Option.mem_def, Option.some.injEq, forall_eq']
      tauto

theorem reads_readOutPoint : Reads (fun _ => readOutPoint) (fun _ _ => True) Encoding.outPoint := by
  intro _ bytes
  constructor
  · exact Program.NeverPanics.bind hash_neverPanics (fun _ =>
      .bind u32Le_neverPanics fun _ =>
        Program.neverPanics_pure _) bytes
  intro outpoint rest
  simp only [readOutPoint, Program.bind_eq_ok, Program.pure_eq_ok, hash_eq_ok,
    u32Le_eq_ok, true_and, Encoding.outPoint, append_assoc]
  constructor
  · rintro ⟨_, _, rfl, _, _, rfl, rfl, rfl⟩
    rfl
  · rintro rfl
    exact ⟨_, _, rfl, _, _, rfl, rfl, rfl⟩

theorem keyed_true {keys : List κ} : Keyed (fun _ _ => True) previous keys := by
  induction keys generalizing previous with
  | nil => trivial
  | cons key keys ih => exact ⟨trivial, ih⟩

--------
-- Records
--------

/- What `serialize` of an outpoint gives is a parameter. -/
def encode (serialize : OutPoint → Bytes) (record : UndoRecord) : Result ε Bytes := do
  let spent ← putList A (fun input => putVarint A input.toNat) record.spent
  let overwritten ← putList A (fun outpoint => .ok (serialize outpoint)) record.overwritten
  return spent ++ overwritten

/- The decoder up to its last check. -/
def body : StoreReader UndoRecord := do
  let spent ← readList A maxBlockInputs (readInput A)
  let overwritten ← readList A maxBlockOutputs fun _ => readOutPoint
  return ⟨spent, overwritten⟩

def decode (bytes : Bytes) : Result DecodeError UndoRecord :=
  StoreReader.read (do
    let record ← body A
    StoreReader.finish
    return record) bytes

def resolve (record : UndoRecord) (block : Block) :
    Result DecodeError (List (OutPoint × StoredCoin)) := do
  let outpoints := block.spends
  let restored ← record.spent.mapM fun entry => do
    let outpoint ← orFail (.tooLong entry.1.toNat outpoints.length)
      outpoints[entry.1.toNat]?
    return (outpoint, entry.2)
  return restored ++ record.overwritten

/- The record is within the bounds of a block. -/
structure Bounded (record : UndoRecord) : Prop where
  ascending : (record.spent.map Prod.fst).Pairwise (· < ·)
  inputs : ∀ entry ∈ record.spent, entry.1.toNat ≤ maxBlockInputs
  spent : record.spent.length ≤ maxBlockInputs
  overwritten : record.overwritten.length ≤ maxBlockOutputs
  coins : ∀ coin ∈ record.spent.map Prod.snd ++ record.overwritten.map Prod.snd,
    coin.output.value.toNat ≤ maxMoney ∧ coin.output.scriptPubkey.length ≤ maxScriptSize

/- The bytes of the two lists. -/
def SpentWord : List UndoCoin → Bytes → Prop :=
  ListWord maxBlockInputs InputFollows fun input => varintBytes input.toNat

def OverwrittenWord : List (OutPoint × StoredCoin) → Bytes → Prop :=
  ListWord maxBlockOutputs (fun _ _ => True) Encoding.outPoint

/-
  The bytes begin like a record and reach a coin that is too high, among the spent coins or, after
  those, among the overwritten ones.
-/
def MeetsTallCoin (bytes : Bytes) : Prop :=
  TallStart maxBlockInputs InputFollows (fun input => varintBytes input.toNat) bytes ∨
    ∃ spent word rest, SpentWord spent word ∧
      TallStart maxBlockOutputs (fun _ _ => True) Encoding.outPoint rest ∧ bytes = word ++ rest

theorem body_eq_ok :
    body A bytes = (.ok record, rest) ↔ ∃ first second, SpentWord record.spent first ∧
      OverwrittenWord record.overwritten second ∧ bytes = first ++ (second ++ rest) := by
  simp only [body, Program.bind_eq_ok, Program.pure_eq_ok,
    readList_eq_ok A maxBlockInputs_lt (reads_readInput A),
    readList_eq_ok A maxBlockOutputs_lt reads_readOutPoint]
  constructor
  · rintro ⟨spent, _, ⟨first, hFst, rfl⟩, overwritten, _, ⟨second, hSnd, rfl⟩, rfl, rfl⟩
    exact ⟨first, second, hFst, hSnd, rfl⟩
  · rintro ⟨first, second, hFst, hSnd, rfl⟩
    exact ⟨_, _, ⟨first, hFst, rfl⟩, _, rest, ⟨second, hSnd, rfl⟩, rfl, rfl⟩

theorem body_panics : (body A bytes).1.Panics ↔ MeetsTallCoin bytes := by
  rw [body, Program.bind_panics, readList_panics A maxBlockInputs_lt (reads_readInput A)]
  refine or_congr_right ?_
  constructor
  · rintro ⟨spent, rest, hSpent, hPanics⟩
    rcases (readList_eq_ok A maxBlockInputs_lt (reads_readInput A)).mp hSpent with
      ⟨word, hWord, rfl⟩
    rcases Program.bind_panics.mp hPanics with hTall | ⟨_, _, _, ⟨⟩⟩
    exact ⟨spent, word, rest, hWord,
      (readList_panics A maxBlockOutputs_lt reads_readOutPoint).mp hTall, rfl⟩
  · rintro ⟨spent, word, rest, hWord, hTall, rfl⟩
    exact ⟨spent, rest,
      (readList_eq_ok A maxBlockInputs_lt (reads_readInput A)).mpr ⟨word, hWord, rfl⟩,
      Program.bind_panics.mpr
        (.inl ((readList_panics A maxBlockOutputs_lt reads_readOutPoint).mpr hTall))⟩

/- The decoder takes what its body takes to the end. -/
theorem decode_eq_ok : decode A bytes = .ok record ↔ body A bytes = (.ok record, []) := by
  have hWhole : decode A bytes = .ok record ↔ ∃ rest,
      (body A >>= fun r => StoreReader.finish >>= fun _ => pure r) bytes = (.ok record, rest) := by
    constructor
    · intro hDecode
      exact ⟨_, Prod.ext hDecode rfl⟩
    · rintro ⟨rest, hRead⟩
      exact congrArg Prod.fst hRead
  simp only [hWhole, Program.bind_eq_ok, Program.pure_eq_ok]
  constructor
  · rintro ⟨_, record, rest, hBody, _, _, hFinish, rfl, rfl⟩
    rcases rest with _ | ⟨byte, rest⟩
    · exact hBody
    · cases hFinish
  · intro hBody
    exact ⟨[], record, [], hBody, (), [], rfl, rfl, rfl⟩

theorem decode_panics : (decode A bytes).Panics ↔ MeetsTallCoin bytes := by
  have hCalm (record : UndoRecord) :
      (StoreReader.finish >>= fun _ => pure record : StoreReader UndoRecord).NeverPanics := by
    refine Program.NeverPanics.bind (fun rest => ?_) fun _ => Program.neverPanics_pure _
    rcases rest with _ | ⟨byte, rest⟩ <;> rintro ⟨⟩
  rw [← body_panics A]
  constructor
  · intro hPanics
    rcases Program.bind_panics.mp hPanics with hBody | ⟨record, rest, _, hLater⟩
    · exact hBody
    · exact absurd hLater (hCalm record rest)
  · intro hBody
    exact Program.bind_panics.mpr (.inl hBody)

/- Whatever was decoded is within the bounds. -/
theorem bounded_of_body_eq_ok (hBody : body A bytes = (.ok record, rest)) : record.Bounded := by
  rcases (body_eq_ok A).mp hBody with
    ⟨_, _, ⟨hSpent, hKeyed, _, hFst, _⟩, ⟨hOverwritten, _, _, hSnd, _⟩, _⟩
  obtain ⟨hAscending, hInputs⟩ := keyed_inputFollows_iff.mp hKeyed
  refine ⟨hAscending, ?_, hSpent, hOverwritten, ?_⟩
  · intro entry hEntry
    exact hInputs _ (mem_map_of_mem hEntry)
  · intro coin hCoin
    rcases mem_append.mp hCoin with hCoin | hCoin
    · exact hFst.bounded hCoin
    · exact hSnd.bounded hCoin

/- A record within the bounds is written. -/
theorem encode_eq_ok {serialize : OutPoint → Bytes}
    (hSerialize : ∀ outpoint, serialize outpoint = Encoding.outPoint outpoint)
    (hBounded : record.Bounded) :
    ∃ word, (encode A serialize record : Result ε Bytes) = .ok word ∧
      body A word = (.ok record, []) := by
  have hCoins := forall_mem_append.mp hBounded.coins
  rw [forall_mem_map, forall_mem_map] at hCoins
  have hInputs : Keyed InputFollows none (record.spent.map Prod.fst) :=
    keyed_inputFollows_iff.mpr ⟨hBounded.ascending, forall_mem_map.mpr hBounded.inputs⟩
  have hPut : ∀ entry ∈ record.spent,
      (putVarint A entry.1.toNat : Result ε Bytes) = .ok (varintBytes entry.1.toNat) :=
    fun entry _ => putVarint_eq A (entry.1.toNat_lt.trans (by decide))
  have hOutPoints : ∀ entry ∈ record.overwritten,
      (.ok (serialize entry.1) : Result ε Bytes) = .ok (Encoding.outPoint entry.1) :=
    fun entry _ => congrArg _ (hSerialize entry.1)
  obtain ⟨first, hFst, hFirstWord⟩ := @putList_eq_ok ε _ A InputFollows
    (fun input => varintBytes input.toNat) _ maxBlockInputs_lt
    (fun input => putVarint A input.toNat) _ hBounded.spent hInputs hPut hCoins.1
  obtain ⟨second, hSnd, hSecondWord⟩ := @putList_eq_ok ε _ A (fun _ _ => True)
    Encoding.outPoint _ maxBlockOutputs_lt
    (fun outpoint => .ok (serialize outpoint)) _ hBounded.overwritten keyed_true hOutPoints hCoins.2
  refine ⟨first ++ second, ?_, ?_⟩
  · rw [encode, hFst, ok_bind, hSnd]
    rfl
  · exact (body_eq_ok A).mpr ⟨first, second, hFirstWord, hSecondWord, by simp⟩

theorem resolve_not_panics (record : UndoRecord) (block : Block) :
    ¬ (record.resolve block).Panics := by
  rw [← safe_true_iff, resolve, safe_bind]
  refine Safe.mono (safe_mapM (Q := fun _ => True) fun entry _ => ?_) fun _ _ => safe_ok.mpr trivial
  exact safe_bind.mpr (safe_orFail.mpr fun _ _ => safe_ok.mpr trivial)

/-
  What the decoder does with damaged bytes: it ends with a record or an error, a record is within
  the bounds of a block, and looking it up in a block ends the same way.
-/
def ReadsSafely (bytes : Bytes) : Prop :=
  (decode .saturating bytes).Safe fun record =>
    record.Bounded ∧ ∀ block, ¬ (record.resolve block).Panics

/- Only a coin that is too high for a `Height` makes the decoder abort: the reader of a coin lets
  any `u32` through. -/
theorem readsSafely_iff (bytes : Bytes) : ReadsSafely bytes ↔ ¬ MeetsTallCoin bytes := by
  rw [← decode_panics .saturating]
  constructor
  · exact Safe.not_panics
  · intro hCalm
    refine safe_iff_forall_ok.mpr ⟨hCalm, ?_⟩
    intro record hRecord
    exact ⟨bounded_of_body_eq_ok _ ((decode_eq_ok _).mp hRecord), record.resolve_not_panics⟩

/- One spent coin, of height 2^31. -/
def tallRecord : Bytes := [1, 0, 0x8e, 0xfe, 0xfe, 0xff, 0, 0, 6]

/- The reader lets the height through and `Height::new` asserts. -/
theorem not_readsSafely_tallRecord : ¬ ReadsSafely tallRecord := by
  intro hSafe
  exact hSafe.not_panics rfl

/- Bytes that begin with others that are read through are read the same way, and where those panic
  these do. -/
theorem body_append (more : Bytes) (hBody : body A bytes = (.ok record, rest)) :
    body A (bytes ++ more) = (.ok record, rest ++ more) := by
  rcases (body_eq_ok A).mp hBody with ⟨first, second, hFst, hSnd, rfl⟩
  exact (body_eq_ok A).mpr ⟨first, second, hFst, hSnd, by simp⟩

theorem MeetsTallCoin.append (more : Bytes) (hTall : MeetsTallCoin bytes) :
    MeetsTallCoin (bytes ++ more) := by
  rcases hTall with hTall | ⟨spent, word, rest, hWord, hTall, rfl⟩
  · exact .inl (hTall.append more)
  · exact .inr ⟨spent, word, rest ++ more, hWord, hTall.append more, append_assoc _ _ _⟩

theorem not_meetsTallCoin_of_body (hBody : body A bytes = (.ok record, rest)) :
    ¬ MeetsTallCoin bytes := by
  rw [← body_panics A, hBody]
  rintro ⟨⟩

/-
  A record within the bounds is written without a failed assertion or a saturated step, and reads
  back; no other bytes that begin like it or that it begins are a record.
-/
theorem record_exact {serialize : OutPoint → Bytes}
    (hSerialize : ∀ outpoint, serialize outpoint = Encoding.outPoint outpoint) {record : UndoRecord}
    (hBounded : record.Bounded) :
    ∃ bytes, (encode A serialize record : Result Empty Bytes) = .ok bytes ∧
      decode A bytes = .ok record ∧
      ∀ other, other ≠ bytes → other <+: bytes ∨ bytes <+: other →
        ∃ error, decode A other = Result.fail error := by
  obtain ⟨bytes, hEncode, hBody⟩ := encode_eq_ok (ε := Empty) A hSerialize hBounded
  refine ⟨bytes, hEncode, (decode_eq_ok A).mpr hBody, ?_⟩
  intro other hOther hSide
  have hCalm : ¬ (decode A other).Panics := by
    rw [decode_panics]
    intro hTall
    rcases hSide with ⟨more, rfl⟩ | ⟨more, rfl⟩
    · exact not_meetsTallCoin_of_body A hBody (hTall.append more)
    · exact not_meetsTallCoin_of_body A (body_append A more hBody) hTall
  have hRefused (found : UndoRecord) : decode A other ≠ .ok found := by
    intro hFound
    rw [decode_eq_ok] at hFound
    rcases hSide with ⟨more, rfl⟩ | ⟨more, rfl⟩
    · have hSame := (body_append A more hFound).symm.trans hBody
      simp only [nil_append, Prod.mk.injEq] at hSame
      exact hOther (by simp [hSame.2])
    · have hSame := (body_append A more hBody).symm.trans hFound
      simp only [nil_append, Prod.mk.injEq] at hSame
      exact hOther (by simp [hSame.2])
  rcases hDecode : decode A other with (error | _) | found
  · exact ⟨error, rfl⟩
  · exact absurd hDecode hCalm
  · exact absurd hDecode (hRefused found)

theorem undoneCoin_height : 5 ≤ 0x7fffffff := by decide

def undoneCoin (isCoinbase : Bool) : StoredCoin :=
  ⟨⟨5, undoneCoin_height⟩, isCoinbase, ⟨5000000000, [0x51]⟩⟩

/- A coinbase output and a plain one, spent by the third and the eighth input, and an output that
  took the place of another. -/
def threeCoins : UndoRecord :=
  ⟨[(2, undoneCoin true), (7, undoneCoin false)],
    [(⟨Crypto.hash32 9, 1⟩, undoneCoin true)]⟩

theorem record_exact_threeCoins :
    ∃ bytes, (encode .strict Encoding.outPoint threeCoins : Result Empty Bytes) = .ok bytes ∧
      decode .strict bytes = .ok threeCoins ∧
      ∀ other, other ≠ bytes → other <+: bytes ∨ bytes <+: other →
        ∃ error, decode .strict other = Result.fail error :=
  record_exact .strict (fun _ => rfl)
    ⟨by decide, by decide, by decide, by decide, by decide⟩

end UndoRecord

end Bitmigo
