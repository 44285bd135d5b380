import Bitmigo.Chain.Lineage

/-
  How the header tree grows.

  Key definitions include:
    * `HeaderTree.extended`, the tree with one entry more
    * `HeaderTree.Enters`, the entry a header gets
    * `HeaderTree.Attaches`, `HeaderTree.Placed` and `HeaderTree.Stuck`

  Key theorems include:
    * `addWork_eq`, the byte loop adds
    * `HeaderTree.Sound.insert_cases`, what an insert does
    * `HeaderTree.Sound.extended`, an insert keeps the tree sound
    * `HeaderTree.Sound.accept_cases`, every way to accept or refuse a header and the two ways to
      panic
-/

namespace Bitmigo

open Result List U256

open Arena (upTo)

--------
-- Work
--------

theorem decode_reverse (bytes : Bytes) :
    LittleEndian.decode bytes.reverse = Limbs.value 256 (bytes.map UInt8.toNat) := by
  induction bytes with
  | nil => rfl
  | cons byte rest ih =>
    rw [reverse_cons, LittleEndian.decode_append, ih]
    simp only [length_reverse, LittleEndian.decode, map_cons, Limbs.value_cons, length_map]
    ring

theorem signedValue_bytes {left right : Bytes} (hLen : left.length = right.length) :
    Limbs.signedValue 256
      ((left.zip right).map fun bytes => ((bytes.1.toNat + bytes.2.toNat : Nat) : Int)) =
      (Limbs.value 256 (left.map UInt8.toNat) : Int) + Limbs.value 256 (right.map UInt8.toNat) := by
  induction left generalizing right with
  | nil =>
    cases right with
    | nil => rfl
    | cons _ _ => simp at hLen
  | cons l left ih =>
    cases right with
    | nil => simp at hLen
    | cons r right =>
      rw [length_cons, length_cons, Nat.add_right_cancel_iff] at hLen
      have hZip : (left.zip right).length = right.length := by
        rw [length_zip, hLen, Nat.min_self]
      simp only [zip_cons_cons, map_cons,
        Limbs.signedValue, Limbs.value_cons, ih hLen, length_map, hZip, hLen]
      push_cast
      ring

theorem addWorkStep_spec (bytes : UInt8 × UInt8) {carry : Nat} (hCarry : carry ≤ 1) :
    ∃ byte next, addWorkStep bytes carry = .ok (byte, next) ∧ next ≤ 1 ∧
      (byte.toNat : Int) + 256 * next = ((bytes.1.toNat + bytes.2.toNat : Nat) : Int) + carry := by
  have hLeft : bytes.1.toNat < 256 := bytes.1.toNat_lt
  have hRight : bytes.2.toNat < 256 := bytes.2.toNat_lt
  have hFits : bytes.1.toNat + bytes.2.toNat + carry < 2 ^ 16 := by omega
  refine ⟨UInt8.ofNat ((bytes.1.toNat + bytes.2.toNat + carry) &&& 0xff),
    (bytes.1.toNat + bytes.2.toNat + carry) >>> 8, ?_, ?_, ?_⟩
  · rw [addWorkStep, assert_of hFits]
    rfl
  · rw [Nat.shiftRight_eq_div_pow]
    omega
  · rw [Nat.shiftRight_eq_div_pow, show 0xff = 2 ^ 8 - 1 from rfl,
      Nat.and_two_pow_sub_one_eq_mod, UInt8.toNat_ofNat']
    omega

/- The byte loop adds, and panics past 256 bits. -/
theorem addWork_eq (total block : Work) :
    addWork total block = if beNat total + beNat block < 2 ^ 256 then
        .ok (targetOfNat (beNat total + beNat block))
      else
        panicked := by
  have hDigits : (total.val.zip block.val).length = 32 := by simp [total.property, block.property]
  rcases @Limbs.scanUp_spec Empty _ _ _ 256 addWorkStep UInt8.toNat
      (fun bytes => ((bytes.1.toNat + bytes.2.toNat : Nat) : Int))
      (fun carry => carry) (fun carry => carry ≤ 1) (total.val.zip block.val) 0 (by decide)
      (fun bytes _ _ hCarry => addWorkStep_spec bytes hCarry) with
    ⟨sum, last, hScan, hLast, hValue⟩
  have hTotal : beNat total = Limbs.value 256 (total.val.map UInt8.toNat) := decode_reverse _
  have hBlock : beNat block = Limbs.value 256 (block.val.map UInt8.toNat) := decode_reverse _
  have hLen : sum.val.length = 32 := sum.property.trans hDigits
  have hSum : beNat ⟨sum.val, hLen⟩ = Limbs.value 256 (sum.val.map UInt8.toNat) :=
    decode_reverse _
  have hLt := beNat_lt ⟨sum.val, hLen⟩
  have hPow : ((256 : Nat) : Int) ^ (total.val.zip block.val).length = 2 ^ 256 := by
    rw [hDigits]
    norm_num
  rw [signedValue_bytes (total.property.trans
    block.property.symm), hPow, ← hTotal, ← hBlock, ← hSum] at hValue
  simp only [addWork, hScan, ok_bind]
  by_cases hFits : beNat total + beNat block < 2 ^ 256
  · have hZero : last = 0 := by omega
    subst hZero
    rw [if_pos hFits, assert_of rfl, ok_bind, pure_inj]
    apply beNat_injective
    rw [beNat_targetOfNat hFits]
    omega
  · have hOne : ¬ last = 0 := by omega
    rw [if_neg hFits, assert, if_neg hOne]
    rfl

--------
-- One Entry More
--------

theorem skipHeight_lt {height : Nat} (hPos : 0 < height) : skipHeight height < height :=
  SkipList.landing_lt hPos

namespace HeaderTree

/- The work recorded at a node. -/
def workAt (tree : HeaderTree) (node : NodeId) : Nat :=
  (tree.entries[node]?.map fun entry => beNat entry.chainwork).getD 0

variable {entry : HeaderEntry}

theorem workAt_eq {tree : HeaderTree} {node : NodeId} (hEntry : tree.entries[node]? = some entry) :
    tree.workAt node = beNat entry.chainwork := by
  simp [workAt, hEntry]

/- The tree with one entry more. -/
def extended (tree : HeaderTree) (entry : HeaderEntry) : HeaderTree :=
  { tree with
    entries := tree.entries ++ [entry]
    dirty := tree.dirty ++ [tree.len]
    index := tree.index.insert entry.hash tree.len
    bestHeader :=
      if entry.status.isTerminal = false ∧
          tree.workAt tree.bestHeader < beNat entry.chainwork then
        tree.len
      else
        tree.bestHeader }

/- The entry of a header on top of a chain. -/
structure Enters
    (K : Primitives) (tree : HeaderTree) (header : Header) (parent : NodeId) (chain : List Header)
    (entry : HeaderEntry) : Prop where
  label : entry.header = header
  hash : entry.hash = K.blockHash header
  parent : entry.parent = some parent
  height : entry.height.val = chain.length
  chainwork : beNat entry.chainwork = workNat header.bits + chainWork chain
  skip :
    ∃ target, entry.skip = some target ∧ tree.Lineage target (upTo (skipHeight chain.length) chain)
  dirty : entry.dirty = true

variable {K : Primitives} {params : ChainParams} {tree : HeaderTree} {header : Header}
variable {parent : NodeId} {chain : List Header} {n : NodeId}

/- What an insert can do. -/
theorem Sound.insert_cases (hSound : tree.Sound K params) (hLine : tree.Lineage parent chain)
    (hFresh : tree.index.lookup (K.blockHash header) = none) (hBest : tree.bestHeader < tree.len)
    (status : HeaderStatus) :
    (tree.cap ≤ tree.len ∧
      tree.insert header (K.blockHash header) parent status = Result.fail (.treeFull, tree)) ∨
    (tree.len < tree.cap ∧ 2 ^ 256 ≤ workNat header.bits + chainWork chain ∧
      tree.insert header (K.blockHash header) parent status = panicked) ∨
    (tree.len < tree.cap ∧ workNat header.bits + chainWork chain < 2 ^ 256 ∧
      ∃ entry, tree.Enters K header parent chain entry ∧ entry.status = status ∧
        tree.insert header (K.blockHash header) parent status =
          .ok (tree.len, tree.extended entry)) := by
  by_cases hRoom : tree.len < tree.cap
  · right
    rcases Lineage.entry hLine with ⟨above, _, hAbove, _⟩
    have hFits := hSound.fits hAbove hLine
    have hHeight := hFits.height
    have hLen := hSound.length_le hLine
    have hMax : maxTreeHeaders < 0x7fffffff := by decide
    have hCap := hSound.cap_le
    have hNext : (above.height.next : Result (AcceptError × HeaderTree) Height) =
        .ok ⟨chain.length, by omega⟩ :=
      Height.next_eq_ok.mpr hHeight.symm
    have hSkipLt : skipHeight chain.length < chain.length := skipHeight_lt (by omega)
    have hLanding :
        (Height.new (skipHeight chain.length) : Result (AcceptError × HeaderTree) Height) =
          .ok ⟨skipHeight chain.length, by omega⟩ :=
      dif_pos _
    rcases hSound.ancestor_eq hLine
        (show (⟨skipHeight chain.length, by omega⟩ : Height).val < chain.length from hSkipLt) with
      ⟨target, hTarget, hTargetLineage⟩
    have hAt : NodeId.at tree.len = .ok tree.len := by
      rw [NodeId.at, assert_of (by omega)]
      rfl
    have hWork := workNat_lt header.bits
    have hSum : beNat above.chainwork + beNat (targetOfNat (workNat header.bits)) =
        workNat header.bits + chainWork chain := by
      rw [beNat_targetOfNat hWork, hFits.chainwork, Nat.add_comm]
    rw [insert, ensure_of hRoom, ok_bind, entry_eq hAbove, lift_ok, ok_bind, hNext,
      ok_bind, blockWork_eq, ok_bind, addWork_eq, hSum]
    by_cases hOver : workNat header.bits + chainWork chain < 2 ^ 256
    · right
      let entry : HeaderEntry :=
        { header := header
          hash := K.blockHash header
          height := ⟨chain.length, by omega⟩
          chainwork := targetOfNat (workNat header.bits + chainWork chain)
          parent := some parent
          skip := some target
          status := status
          dirty := true }
      rcases List.getElem?_eq_some_iff.mpr ⟨hBest, rfl⟩ with hBestEntry
      have hBestGrown :
          (tree.entries ++ [entry])[tree.bestHeader]? = some tree.entries[tree.bestHeader] := by
        rw [getElem?_append_left hBest, hBestEntry]
      refine ⟨hRoom, hOver, entry, ⟨rfl, rfl, rfl, rfl,
        beNat_targetOfNat hOver, ⟨target, rfl, hTargetLineage⟩, rfl⟩, rfl, ?_⟩
      rw [if_pos hOver, lift_ok, ok_bind, hLanding, ok_bind, hTarget, lift_ok, ok_bind,
        assert_of (show (some target).isSome from rfl), ok_bind, hAt, lift_ok, ok_bind]
      dsimp only
      rw [hFresh, assert_of (show (none : Option NodeId).isNone from rfl),
        ok_bind, entry_eq hBestGrown, lift_ok, ok_bind, extended, workAt_eq hBestEntry]
      split <;> rfl
    · left
      refine ⟨hRoom, Nat.not_lt.mp hOver, ?_⟩
      rw [if_neg hOver]
      rfl
  · left
    refine ⟨Nat.not_lt.mp hRoom, ?_⟩
    rw [insert, ensure, if_neg hRoom]
    rfl

theorem getElem?_extended {other : HeaderEntry} :
    (tree.extended entry).entries[n]? = some other ↔
      tree.entries[n]? = some other ∨ n = tree.len ∧ entry = other := by
  show (tree.entries ++ [entry])[n]? = some other ↔ _
  rcases Nat.lt_trichotomy n tree.entries.length with hLt | rfl | hGt
  · rw [getElem?_append_left hLt]
    simp [len, hLt.ne]
  · simp [len]
  · have hNone : (tree.entries ++ [entry])[n]? = none := by
      rw [List.getElem?_eq_none_iff, length_append, length_singleton]
      omega
    have hOld : tree.entries[n]? = none := List.getElem?_eq_none_iff.mpr hGt.le
    simp [hNone, hOld, len, hGt.ne']

theorem extends_extended (entry : HeaderEntry) :
    Arena.Extends tree.view (tree.extended entry).view := by
  rintro n ⟨header, parent⟩ hView
  rcases view_eq_some.mp hView with ⟨old, hOld, rfl, rfl⟩
  exact view_of_entry (getElem?_extended.mpr (.inl hOld))

theorem lt_len {n : Nat} (hEntry : tree.entries[n]? = some entry) : n < tree.len :=
  (List.getElem?_eq_some_iff.mp hEntry).1

/- The new node's lineage. -/
theorem Enters.lineage (hEnters : tree.Enters K header parent chain entry)
    (hLine : tree.Lineage parent chain) :
    (tree.extended entry).Lineage tree.len (header :: chain) := by
  refine .child ?_ (hLine.mono (extends_extended entry))
  rw [← hEnters.label, ← hEnters.parent]
  exact view_of_entry (getElem?_extended.mpr (.inr ⟨rfl, rfl⟩))

section

variable (hSound : tree.Sound K params) (hEnters : tree.Enters K header parent chain entry)
variable (hLine : tree.Lineage parent chain)

include hSound hEnters hLine

/- The old lineages, and the new one. -/
theorem Sound.lineage_extended {other : List Header} :
    (tree.extended entry).Lineage n other ↔
      tree.Lineage n other ∨ n = tree.len ∧ other = header :: chain := by
  constructor
  · intro hOther
    rcases Lineage.entry hOther with ⟨found, _, hFound, _⟩
    rcases getElem?_extended.mp hFound with hOld | ⟨rfl, _⟩
    · exact .inl (hSound.grown.lineage_of_extends
        (extends_extended entry) (view_isSome hOld) hOther)
    · exact .inr ⟨rfl, hOther.unique (hEnters.lineage hLine)⟩
  · rintro (hOld | ⟨rfl, rfl⟩)
    · exact hOld.mono (extends_extended entry)
    · exact hEnters.lineage hLine

theorem Sound.grown_extended : Arena.Grown (tree.extended entry).view := by
  rcases Lineage.entry hLine with ⟨above, _, hAbove, _⟩
  constructor
  · intro n a hView
    rcases view_eq_some.mp hView with ⟨found, hFound, rfl, hPar⟩
    rcases getElem?_extended.mp hFound with hOld | ⟨_, rfl⟩
    · apply hSound.grown.root
      rw [view_of_entry hOld, hPar]
    · simp [hEnters.parent] at hPar
  · intro n a p hView
    rcases view_eq_some.mp hView with ⟨found, hFound, rfl, hPar⟩
    rcases getElem?_extended.mp hFound with hOld | ⟨rfl, rfl⟩
    · have hOldView := view_of_entry hOld
      rw [hPar] at hOldView
      rcases hSound.grown.parent hOldView with ⟨hLt, hSome⟩
      rcases Option.isSome_iff_exists.mp hSome with ⟨x, hx⟩
      refine ⟨hLt, ?_⟩
      rw [extends_extended entry hx]
      rfl
    · rw [hEnters.parent] at hPar
      cases hPar
      exact ⟨lt_len hAbove, view_isSome (getElem?_extended.mpr (.inl hAbove))⟩

/- A checked header under its parent keeps a tree sound. -/
theorem Sound.extended (hFresh : tree.index.lookup (K.blockHash header) = none)
    (hPrevious : tree.index.lookup header.prevBlockhash = some parent)
    (hWorked : checkHeader K header params = .ok ()) (hRoom : tree.len < tree.cap) :
    (tree.extended entry).Sound K params := by
  refine ⟨hSound.grown_extended hEnters hLine,
    hSound.root.mono (extends_extended entry), ?_, ?_, ?_, ?_, ?_, hSound.cap_le⟩
  · -- every entry still fits its chain
    intro n found other hFound hOther
    rcases getElem?_extended.mp hFound with hOld | ⟨rfl, rfl⟩
    · have hOldLineage :=
        hSound.grown.lineage_of_extends (extends_extended entry) (view_isSome hOld) hOther
      have hFits := hSound.fits hOld hOldLineage
      refine ⟨hFits.hash, hFits.height, hFits.chainwork, ?_⟩
      intro hPos
      rcases hFits.skip hPos with ⟨target, hSkip, hTarget⟩
      exact ⟨target, hSkip, hTarget.mono (extends_extended entry)⟩
    · cases hOther.unique (hEnters.lineage hLine)
      have hHeight := hEnters.height
      have hPos := length_pos_iff.mpr hLine.ne_nil
      refine ⟨by rw [hEnters.hash, hEnters.label], ?_, hEnters.chainwork, ?_⟩
      · rw [hHeight, length_cons]
      · intro _
        rcases hEnters.skip with ⟨target, hSkip, hTarget⟩
        refine ⟨target, hSkip, ?_⟩
        rw [hHeight, ← Arena.upTo_of_suffix (suffix_cons header chain) (skipHeight_lt hPos)]
        exact hTarget.mono (extends_extended _)
  · -- every header names its parent
    intro n p found above hFound hPar hAbove
    rcases getElem?_extended.mp hFound with hOld | ⟨rfl, rfl⟩
    · have hView := view_of_entry hOld
      rw [hPar] at hView
      have hLt := (hSound.grown.parent hView).1
      have hn := lt_len hOld
      rcases getElem?_extended.mp hAbove with hOldAbove | ⟨rfl, _⟩
      · exact hSound.linked hOld hPar hOldAbove
      · omega
    · rw [hEnters.parent] at hPar
      cases hPar
      rcases hSound.index.mp hPrevious with ⟨named, hNamed, hHash⟩
      rw [getElem?_extended.mpr (.inl hNamed)] at hAbove
      cases hAbove
      rw [hEnters.label, hHash]
  · intro n found hFound hNe
    rcases getElem?_extended.mp hFound with hOld | ⟨_, rfl⟩
    · exact hSound.worked hOld hNe
    · rwa [hEnters.label]
  · -- the index gains the new hash
    intro hash n
    show (tree.index.insert entry.hash tree.len).lookup hash = some n ↔ _
    by_cases hSame : hash = entry.hash
    · subst hSame
      rw [Finmap.lookup_insert, Option.some.injEq]
      constructor
      · rintro rfl
        exact ⟨entry, getElem?_extended.mpr (.inr ⟨rfl, rfl⟩), rfl⟩
      · rintro ⟨found, hFound, hHash⟩
        rcases getElem?_extended.mp hFound with hOld | ⟨rfl, _⟩
        · have hTaken := hSound.index.mpr ⟨found, hOld, hHash⟩
          rw [hEnters.hash, hFresh] at hTaken
          cases hTaken
        · rfl
    · rw [Finmap.lookup_insert_of_ne _ hSame, hSound.index]
      constructor
      · rintro ⟨found, hFound, hHash⟩
        exact ⟨found, getElem?_extended.mpr (.inl hFound), hHash⟩
      · rintro ⟨found, hFound, hHash⟩
        rcases getElem?_extended.mp hFound with hOld | ⟨_, rfl⟩
        · exact ⟨found, hOld, hHash⟩
        · exact absurd hHash.symm hSame
  · show (tree.entries ++ [entry]).length ≤ tree.cap
    rwa [length_append, length_singleton]

end

--------
-- Accepting a Header
--------

/- A new header that passes the free check, above a block of the tree. -/
structure Attaches (K : Primitives) (params : ChainParams) (tree : HeaderTree) (header : Header)
    (parent : NodeId) (chain : List Header) : Prop where
  fresh : tree.nodeOf (K.blockHash header) = none
  check : checkHeader K header params = .ok ()
  below : tree.nodeOf header.prevBlockhash = some parent
  lineage : tree.Lineage parent chain

/- Every way to accept or refuse a header. -/
inductive Placed (K : Primitives) (params : ChainParams) (tree : HeaderTree) (header : Header)
    (now : BlockTime) :
    Except AcceptError Accepted → HeaderTree → Prop where
  | duplicate {node : NodeId} (hKnown : tree.nodeOf (K.blockHash header) = some node) :
      Placed K params tree header now (.ok (.duplicate node)) tree
  | unchecked {error : HeaderError} (hFresh : tree.nodeOf (K.blockHash header) = none)
      (hCheck : checkHeader K header params = Result.fail error) :
      Placed K params tree header now (.error (.checkHeader error)) tree
  | unconnected (hFresh : tree.nodeOf (K.blockHash header) = none)
      (hCheck : checkHeader K header params = .ok ())
      (hOrphan : tree.nodeOf header.prevBlockhash = none) :
      Placed K params tree header now (.error (.unknownParent header.prevBlockhash)) tree
  | full {parent : NodeId} {chain : List Header} {period : List HeaderFacts}
      (hAt : tree.Attaches K params header parent chain) (hFull : tree.cap ≤ tree.len) :
      Placed K params tree header now (.error .treeFull) { tree with period := period }
  | tooNew {parent : NodeId} {chain : List Header} {context : Context}
      (hAt : tree.Attaches K params header parent chain) (hSpared : tree.culprit parent = .ok none)
      (hCtx : IsContext K params chain header context)
      (hAccept : acceptHeader header params context = .ok ())
      (hClock : futureLimit now < header.time) :
      Placed K params tree header now
        (.error (.tooFarInFuture header.time (futureLimit now)))
        { tree with
          period := chainPeriod params.intervalOf chain }
  | inherits {parent : NodeId} {chain : List Header} {culprit : BlockHash} {entry : HeaderEntry}
      (hAt : tree.Attaches K params header parent chain)
      (hRefused : tree.culprit parent = .ok (some culprit)) (hRoom : tree.len < tree.cap)
      (hEnters : tree.Enters K header parent chain entry)
      (hStat : entry.status = .invalidAncestor culprit) :
      Placed K params tree header now
        (.error (.invalidAncestor tree.len culprit)) (tree.extended entry)
  | refused {parent : NodeId} {chain : List Header}
      {context : Context} {error : HeaderError} {entry : HeaderEntry}
      (hAt : tree.Attaches K params header parent chain) (hSpared : tree.culprit parent = .ok none)
      (hCtx : IsContext K params chain header context)
      (hAccept : acceptHeader header params context = Result.fail error)
      (hRoom : tree.len < tree.cap) (hEnters : tree.Enters K header parent chain entry)
      (hStat : entry.status = .invalid (.acceptHeader error)) :
      Placed K params tree header now
        (.error (.invalid tree.len (.acceptHeader error)))
        ({ tree with
          period := chainPeriod params.intervalOf chain
          }.extended entry)
  | accepted {parent : NodeId} {chain : List Header} {context : Context} {entry : HeaderEntry}
      (hAt : tree.Attaches K params header parent chain) (hSpared : tree.culprit parent = .ok none)
      (hCtx : IsContext K params chain header context)
      (hAccept : acceptHeader header params context = .ok ())
      (hClock : ¬ futureLimit now < header.time) (hRoom : tree.len < tree.cap)
      (hEnters : tree.Enters K header parent chain entry)
      (hStat : entry.status = .headerAccepted) :
      Placed K params tree header now
        (.ok (.first tree.len context))
        ({ tree with
          period := chainPeriod params.intervalOf chain
          }.extended entry)

theorem Sound.culprit_returns (hLine : tree.Lineage n chain) :
    ∃ refused, tree.culprit n = .ok refused := by
  rcases Lineage.entry hLine with ⟨entry, _, hEntry, _⟩
  rw [culprit, entry_eq hEntry, ok_bind]
  cases entry.status <;> exact ⟨_, rfl⟩

/- The new entry does not depend on the scratch buffer. -/
theorem Enters.of_period {period : List HeaderFacts}
    (hEnters : { tree with period := period }.Enters K header parent chain entry) :
    tree.Enters K header parent chain entry :=
  ⟨hEnters.label, hEnters.hash, hEnters.parent,
    hEnters.height, hEnters.chainwork, hEnters.skip, hEnters.dirty⟩

/- The header is placed but for its difficulty or its work. -/
structure Stuck
    (K : Primitives) (params : ChainParams) (tree : HeaderTree) (header : Header) (now : BlockTime)
    (parent : NodeId) (chain : List Header) : Prop
    extends tree.Attaches K params header parent chain where
  cause : (tree.culprit parent = .ok none ∧ ∀ context, ¬ IsContext K params chain header context) ∨
    (tree.len < tree.cap ∧
      2 ^ 256 ≤ workNat header.bits + chainWork chain ∧
      (tree.culprit parent = .ok none →
        ∃ context, IsContext K params chain header context ∧
          (acceptHeader header params context = .ok () → ¬ futureLimit now < header.time)))

/- A call returns as one of the cases, or panics at a header that is stuck. -/
def Accepts
    (K : Primitives) (params : ChainParams) (tree : HeaderTree) (header : Header) (now : BlockTime)
    (call : Result Empty (Except AcceptError Accepted × HeaderTree)) : Prop :=
  (∃ outcome after, call = .ok (outcome, after) ∧ Placed K params tree header now outcome after) ∨
    call.Panics ∧ ∃ parent chain, tree.Stuck K params header now parent chain

theorem Sound.acceptUnder_cases (hTab : params.Tabled K) (hSound : tree.Sound K params)
    (hBest : tree.bestHeader < tree.len) (hAt : tree.Attaches K params header parent chain)
    (hSpared : tree.culprit parent = .ok none)
    (now : BlockTime) :
    Accepts K params tree header now
      (settle (tree.acceptUnder header (K.blockHash header) parent params now)) := by
  unfold acceptUnder
  rcases hFor : tree.contextFor parent (K.blockHash header)
      header params with (⟨⟨⟩⟩ | _) | ⟨context, scratch⟩
  · refine .inr ⟨rfl, parent, chain, hAt, .inl ⟨hSpared, ?_⟩⟩
    intro context hCtx
    cases hFor.symm.trans ((hSound.contextFor_eq_ok hTab hAt.lineage).mpr ⟨hCtx, rfl⟩)
  rcases (hSound.contextFor_eq_ok hTab hAt.lineage).mp hFor with ⟨hCtx, rfl⟩
  rw [lift_ok, ok_bind]
  dsimp only
  have hInsert := fun status =>
    (hSound.withPeriod (chainPeriod params.intervalOf chain)).insert_cases hAt.lineage hAt.fresh
      hBest status
  have hSafe := hTab.acceptHeader_not_panics header context
  rcases hVerdict : acceptHeader header params context with (error | _) | ⟨⟩
  · dsimp only
    rcases hInsert (.invalid (.acceptHeader error)) with
      ⟨hFull, hInsert⟩ | ⟨hRoom, hWork, hInsert⟩ | ⟨hRoom, _, entry, hEnters, hStat, hInsert⟩ <;>
      rw [hInsert]
    · exact .inl ⟨_, _, rfl, .full hAt hFull⟩
    · refine .inr ⟨rfl, parent, chain, hAt,
        .inr ⟨hRoom, hWork, fun _ => ⟨context, hCtx, ?_⟩⟩⟩
      rw [hVerdict]
      rintro ⟨⟩
    · exact .inl ⟨_, _, rfl, .refused hAt hSpared
        hCtx hVerdict hRoom hEnters.of_period hStat⟩
  · rw [hVerdict] at hSafe
    exact hSafe.elim
  · dsimp only
    by_cases hClock : futureLimit now < header.time
    · rw [ensure, if_neg (not_not.mpr hClock)]
      exact .inl ⟨_, _, rfl, .tooNew hAt hSpared hCtx hVerdict hClock⟩
    · rw [ensure_of hClock, ok_bind]
      rcases hInsert .headerAccepted with
        ⟨hFull, hInsert⟩ | ⟨hRoom, hWork, hInsert⟩ | ⟨hRoom, _, entry, hEnters, hStat, hInsert⟩ <;>
        rw [hInsert]
      · exact .inl ⟨_, _, rfl, .full hAt hFull⟩
      · exact .inr ⟨rfl, parent, chain, hAt,
          .inr ⟨hRoom, hWork, fun _ => ⟨context, hCtx, fun _ => hClock⟩⟩⟩
      · exact .inl ⟨_, _, rfl, .accepted hAt hSpared
          hCtx hVerdict hClock hRoom hEnters.of_period hStat⟩

/- What a call to `accept` can do. -/
theorem Sound.accept_cases (hTab : params.Tabled K) (hSound : tree.Sound K params)
    (hBest : tree.bestHeader < tree.len) (header : Header) (now : BlockTime) :
    Accepts K params tree header now (settle (tree.accept K header params now)) := by
  unfold accept
  dsimp only
  cases hNode : tree.nodeOf (K.blockHash header) with
  | some node => exact .inl ⟨_, _, rfl, .duplicate hNode⟩
  | none =>
    dsimp only
    have hSafe := checkHeader_not_panics K header params
    rcases hCheck : checkHeader K header params with (error | _) | ⟨⟩
    · exact .inl ⟨_, _, rfl, .unchecked hNode hCheck⟩
    · rw [hCheck] at hSafe
      exact hSafe.elim
    cases hPar : tree.nodeOf header.prevBlockhash with
    | none => exact .inl ⟨_, _, rfl, .unconnected hNode hCheck hPar⟩
    | some parent =>
      rcases hSound.index.mp hPar with ⟨above, hAbove, _⟩
      rcases hSound.exists_lineage hAbove with ⟨chain, hLine⟩
      have hAt : tree.Attaches K params header parent chain := ⟨hNode, hCheck, hPar, hLine⟩
      rcases Sound.culprit_returns hLine with ⟨refused, hRefused⟩
      simp only [mapError, orFail, ok_bind, hRefused, lift_ok]
      cases refused with
      | some culprit =>
        dsimp only
        rcases hSound.insert_cases hLine hNode hBest (.invalidAncestor culprit) with
          ⟨hFull, hInsert⟩ | ⟨hRoom, hWork, hInsert⟩ |
            ⟨hRoom, _, entry, hEnters, hStat, hInsert⟩ <;>
          rw [hInsert]
        · exact .inl ⟨_, _, rfl, .full hAt hFull⟩
        · refine .inr ⟨rfl, parent, chain, hAt, .inr ⟨hRoom, hWork, ?_⟩⟩
          rw [hRefused]
          rintro ⟨⟩
        · exact .inl ⟨_, _, rfl, .inherits hAt hRefused hRoom hEnters hStat⟩
      | none =>
        exact hSound.acceptUnder_cases hTab hBest hAt hRefused now

/- A call that returned was one of the cases. -/
theorem Accepts.placed {call : Result Empty (Except AcceptError Accepted × HeaderTree)}
    {now : BlockTime} {outcome : Except AcceptError Accepted} {after : HeaderTree}
    (hAccepts : Accepts K params tree header now call) (hOk : call = .ok (outcome, after)) :
    Placed K params tree header now outcome after := by
  rcases hAccepts with ⟨_, _, hCall, hPlaced⟩ | ⟨hPanics, _⟩
  · cases hCall.symm.trans hOk
    exact hPlaced
  · cases hPanics.symm.trans hOk

end HeaderTree

end Bitmigo
