import Bitmigo.Chain.Context
import Bitmigo.Chain.Total

/-
  The order in which headers arrive.

  Key definitions include:
    * `Stands`, what a set of headers makes of a chain, whatever their order
    * `ParentsFirst`, the orders in which no header comes before its parent

  Key theorems include:
    * `HeaderTree.Settled.placed`, one header more
    * `HeaderTree.acceptAll_settled`, the tree holds exactly the chains that stand
    * `accept_order`, two orders give trees that agree
-/

namespace Bitmigo

open Result List Except

section

variable {K : Primitives} {params : ChainParams} {now : BlockTime} {refusal : Option BlockHash}
variable {header head : Header} {headers rest chain : List Header} {entry : HeaderEntry}
variable {tree after : HeaderTree} {outcome : Except AcceptError Accepted}

--------
-- What a Set of Headers Makes of a Chain
--------

/- The refused block below a child of `head`. -/
def refusalOf (K : Primitives) (head : Header) :
    HeaderStatus → Option BlockHash
  | .invalid _ => some (K.blockHash head)
  | .invalidAncestor culprit => some culprit
  | .genesis | .headerAccepted | .blockChecked _
  | .connected _ _ => none

/- What becomes of a checked header on top of a chain. -/
inductive Fate (K : Primitives) (params : ChainParams) (now : BlockTime) (header : Header)
    (chain : List Header)
    (refusal : Option BlockHash) : HeaderStatus → Prop where
  | inherits {culprit : BlockHash} (hRefused : refusal = some culprit) :
      Fate K params now header chain refusal (.invalidAncestor culprit)
  | refused {context : Context} {error : HeaderError} (hSpared : refusal = none)
      (hCtx : IsContext K params chain header context)
      (hAccept : acceptHeader header params context = Result.fail error) :
      Fate K params now header chain refusal (.invalid (.acceptHeader error))
  | accepted {context : Context} (hSpared : refusal = none)
      (hCtx : IsContext K params chain header context)
      (hAccept : acceptHeader header params context = .ok ())
      (hClock : ¬ futureLimit now < header.time) :
      Fate K params now header chain refusal .headerAccepted

theorem Fate.unique {params : ChainParams} {now : BlockTime} {header : Header} {chain : List Header}
    {status other : HeaderStatus} (hFate : Fate K params now header chain refusal status)
    (hOther : Fate K params now header chain refusal other) : status = other := by
  cases hFate with
  | inherits hRefused =>
    cases hOther with
    | inherits hSame =>
      rw [hRefused, Option.some.injEq] at hSame
      rw [hSame]
    | refused hSpared _ _ | accepted hSpared _ _ _ =>
      rw [hRefused] at hSpared
      cases hSpared
  | refused hSpared hCtx hAccept =>
    cases hOther with
    | inherits hRefused =>
      rw [hRefused] at hSpared
      cases hSpared
    | refused _ hCtx' hAccept' =>
      rw [hCtx.unique hCtx', hAccept'] at hAccept
      cases hAccept
      rfl
    | accepted _ hCtx' hAccept' _ =>
      rw [hCtx.unique hCtx', hAccept'] at hAccept
      cases hAccept
  | accepted hSpared hCtx hAccept _ =>
    cases hOther with
    | inherits hRefused =>
      rw [hRefused] at hSpared
      cases hSpared
    | refused _ hCtx' hAccept' =>
      rw [hCtx.unique hCtx', hAccept'] at hAccept
      cases hAccept
    | accepted _ _ _ _ => rfl

/- A header that is checked on top of `head`. -/
structure Follows (K : Primitives) (params : ChainParams)
    (head header : Header) : Prop where
  fresh : K.blockHash header ≠ K.blockHash params.genesis.header
  linked : header.prevBlockhash = K.blockHash head
  check : checkHeader K header params = .ok ()

/- The chains of a set of headers, with their statuses. -/
inductive Stands (K : Primitives) (params : ChainParams) (now : BlockTime) (headers : List Header) :
    List Header → HeaderStatus → Prop where
  | genesis : Stands K params now headers [params.genesis.header] .genesis
  | grow {header head : Header} {chain : List Header} {below status : HeaderStatus}
      (hBelow : Stands K params now headers (head :: chain) below) (hHeader : header ∈ headers)
      (hFollows : Follows K params head header)
      (hFate : Fate K params now header (head :: chain) (refusalOf K head below) status) :
      Stands K params now headers (header :: head :: chain) status

/- No chain of the set makes `accept` panic on a header. -/
def Placeable (K : Primitives) (params : ChainParams) (now : BlockTime) (headers : List Header)
    (header : Header) : Prop :=
  ∀ head rest below,
    Stands K params now headers (head :: rest) below →
      Follows K params head header →
        (refusalOf K head below = none →
          ∃ context, IsContext K params (head :: rest) header context) ∧
        ∀ status,
          Fate K params now header (head :: rest)
              (refusalOf K head below) status →
            workNat header.bits + chainWork (head :: rest) < 2 ^ 256

section

variable {others : List Header} {status : HeaderStatus}

theorem Stands.mono (hSub : headers ⊆ others) (hStands : Stands K params now headers chain status) :
    Stands K params now others chain status := by
  induction hStands with
  | genesis => exact .genesis
  | grow _ hHeader hFollows hFate ih => exact .grow ih (hSub hHeader) hFollows hFate

/- Every header of a chain is genesis or from the set. -/
theorem Stands.mem {header : Header}
    (hStands : Stands K params now headers (header :: chain) status) :
    header = params.genesis.header ∨ header ∈ headers := by
  cases hStands with
  | genesis => exact .inl rfl
  | grow _ hHeader _ _ => exact .inr hHeader

/- A header that is nobody's parent yet adds chains that end in it, and no others. -/
theorem Stands.append {header : Header}
    (hChildless : ∀ other ∈ headers ++ [header], other.prevBlockhash ≠ K.blockHash header)
    (hStands : Stands K params now (headers ++ [header]) chain status) :
    Stands K params now headers chain status ∨ ∃ head rest below, chain = header :: head :: rest ∧
      Stands K params now headers (head :: rest) below ∧ Follows K params head header ∧
      Fate K params now header (head :: rest) (refusalOf K head below) status := by
  induction hStands with
  | genesis => exact .inl .genesis
  | @grow next head rest below status hBelow hNext hFollows hFate ih =>
      have hOld : Stands K params now headers (head :: rest) below := by
        rcases ih with hOld | ⟨_, _, _, hChain, _⟩
        · exact hOld
        · have hHead := (List.cons.inj hChain).1
          have hLinked := hFollows.linked
          rw [hHead] at hLinked
          exact absurd hLinked (hChildless next hNext)
      rcases mem_append.mp hNext with hOlder | hNew
      · exact .inl (.grow hOld hOlder hFollows hFate)
      · cases mem_singleton.mp hNew
        exact .inr ⟨head, rest, below, rfl, hOld, hFollows, hFate⟩

end

--------
-- A Tree That Holds What Stands
--------

namespace HeaderTree

/- The tree holds a chain whose last block has a status. -/
def Holds (tree : HeaderTree) (chain : List Header) (status : HeaderStatus) : Prop :=
  ∃ n : Nat, tree.Lineage n chain ∧ tree.statusAt n = some status

/- The tree a set of headers gives, in whatever order. -/
structure Settled (K : Primitives) (params : ChainParams) (now : BlockTime) (headers : List Header)
    (tree : HeaderTree) : Prop where
  healthy : tree.Healthy K params
  stands : ∀ chain status, tree.Holds chain status ↔ Stands K params now headers chain status
  len_le : tree.len ≤ headers.length + 1
  ready : ∀ header ∈ headers, Placeable K params now headers header

variable {parent : NodeId}

/- Where the last block of a chain stands. -/
structure Tops
    (K : Primitives) (tree : HeaderTree) (n : NodeId) (head : Header) (rest : List Header)
    (below : HeaderStatus) : Prop where
  lineage : tree.Lineage n (head :: rest)
  found : tree.nodeOf (K.blockHash head) = some n
  refusal : tree.culprit n = .ok (refusalOf K head below)

theorem Healthy.tops (hHealthy : tree.Healthy K params) {n : Nat} {below : HeaderStatus}
    (hLine : tree.Lineage n (head :: rest)) (hStat : tree.statusAt n = some below) :
    Tops K tree n head rest below := by
  rcases statusAt_eq_some.mp hStat with ⟨entry, hEntry, rfl⟩
  rcases hLine.view_head with ⟨parent, hView⟩
  rw [view_of_entry hEntry, Option.some.injEq, Prod.mk.injEq] at hView
  have hHash := (hHealthy.sound.fits hEntry hLine).hash
  rw [hView.1] at hHash
  refine ⟨hLine, hHealthy.sound.index.mpr ⟨entry, hEntry, hHash⟩, ?_⟩
  rw [culprit_eq hEntry, refusalAt_of_entry hEntry, HeaderEntry.refusal, hHash]
  cases entry.status <;> rfl

section

variable (hSettled : Settled K params now headers tree)

include hSettled

/- The block a header names as its parent. -/
theorem Settled.below (hPar : tree.nodeOf header.prevBlockhash = some parent)
    (hLine : tree.Lineage parent chain) :
    ∃ head rest below, chain = head :: rest ∧ header.prevBlockhash = K.blockHash head ∧
      Stands K params now headers (head :: rest) below ∧
      tree.culprit parent = .ok (refusalOf K head below) := by
  rcases Lineage.entry hLine with ⟨entry, rest, hEntry, rfl, _⟩
  have hStat := statusAt_of_entry hEntry
  have hTops := hSettled.healthy.tops hLine hStat
  rcases hSettled.healthy.sound.index.mp hPar with ⟨same, hSame, hHash⟩
  rw [hEntry] at hSame
  cases hSame
  refine ⟨entry.header, rest, entry.status, rfl, ?_,
    (hSettled.stands _ _).mp ⟨parent, hLine, hStat⟩, hTops.refusal⟩
  rw [← hHash, (hSettled.healthy.sound.fits hEntry hLine).hash]

/- What stands below a header is where its parent is. -/
theorem Settled.tops {below : HeaderStatus}
    (hStands : Stands K params now headers (head :: rest) below) :
    ∃ n, Tops K tree n head rest below := by
  rcases (hSettled.stands _ _).mpr hStands with ⟨n, hLine, hStat⟩
  exact ⟨n, hSettled.healthy.tops hLine hStat⟩

/- One header more, once its chains are known. -/
theorem Settled.extend
    (hChildless : ∀ other ∈ headers ++ [header], other.prevBlockhash ≠ K.blockHash header)
    (hHealthy : after.Healthy K params) (hLen : after.len ≤ tree.len + 1)
    (hHolds : ∀ chain status, after.Holds chain status ↔ tree.Holds chain status ∨
      ∃ head rest below, chain = header :: head :: rest ∧
        Stands K params now headers (head :: rest) below ∧ Follows K params head header ∧
        Fate K params now header (head :: rest) (refusalOf K head below) status)
    (hReady : Placeable K params now headers header) :
    Settled K params now (headers ++ [header]) after := by
  have hSub : headers ⊆ headers ++ [header] := subset_append_left _ _
  refine ⟨hHealthy, ?_, ?_, ?_⟩
  · intro chain status
    rw [hHolds, hSettled.stands]
    constructor
    · rintro (hOld | ⟨head, rest, below, rfl, hBelow, hFollows, hFate⟩)
      · exact hOld.mono hSub
      · exact .grow (hBelow.mono hSub) (mem_append_right _ mem_cons_self) hFollows hFate
    · exact fun hStands => hStands.append hChildless
  · have hShort := hSettled.len_le
    rw [length_append, length_singleton]
    omega
  · intro other hOther head chain below hStands hFollows
    have hOld : Stands K params now headers (head :: chain) below := by
      rcases hStands.append hChildless with hOld | ⟨_, _, _, hChain, _⟩
      · exact hOld
      · have hLinked := hFollows.linked
        rw [(List.cons.inj hChain).1] at hLinked
        exact absurd hLinked (hChildless other hOther)
    rcases mem_append.mp hOther with hOlder | hNew
    · exact hSettled.ready other hOlder head chain below hOld hFollows
    · cases mem_singleton.mp hNew
      exact hReady head chain below hOld hFollows

--------
-- One Header More
--------

/- A header has one place in the tree. -/
theorem Settled.place {below : HeaderStatus}
    (hStands : Stands K params now headers (head :: rest) below)
    (hFollows : Follows K params head header) :
    ∃ parent, tree.nodeOf header.prevBlockhash = some parent ∧ tree.Lineage parent (head :: rest) ∧
      tree.culprit parent = .ok (refusalOf K head below) := by
  rcases hSettled.tops hStands with ⟨n, hTops⟩
  refine ⟨n, ?_, hTops.lineage, hTops.refusal⟩
  rw [hFollows.linked]
  exact hTops.found

/- The header is turned away. -/
theorem Settled.unplaced
    (hChildless : ∀ other ∈ headers ++ [header], other.prevBlockhash ≠ K.blockHash header)
    (period : List HeaderFacts)
    (hNever : ∀ parent head rest refusal, tree.nodeOf header.prevBlockhash = some parent →
          tree.Lineage parent (head :: rest) →
          tree.culprit parent = .ok refusal →
          Follows K params head header →
            (refusal = none → ∃ context, IsContext K params (head :: rest) header context) ∧
            ∀ status, ¬ Fate K params now header (head :: rest) refusal status) :
    Settled K params now (headers ++ [header]) { tree with period := period } := by
  refine hSettled.extend hChildless (hSettled.healthy.withPeriod period) (Nat.le_succ _) ?_ ?_
  · intro chain status
    constructor
    · exact fun hHolds => .inl hHolds
    · rintro (hOld | ⟨head, rest, below, rfl, hStands, hFollows, hFate⟩)
      · exact hOld
      · rcases hSettled.place hStands hFollows with ⟨parent, hPar, hLine, hCulprit⟩
        exact absurd hFate ((hNever parent head rest _ hPar hLine hCulprit hFollows).2 status)
  · intro head rest below hStands hFollows
    rcases hSettled.place hStands hFollows with ⟨parent, hPar, hLine, hCulprit⟩
    have hOnce := hNever parent head rest _ hPar hLine hCulprit hFollows
    exact ⟨hOnce.1, fun status hFate => absurd hFate (hOnce.2 status)⟩

end

theorem holds_extended (hSound : tree.Sound K params)
    (hEnters : tree.Enters K header parent chain entry) (hLine : tree.Lineage parent chain)
    (other : List Header) (status : HeaderStatus) :
    (tree.extended entry).Holds other status ↔
      tree.Holds other status ∨ other = header :: chain ∧ entry.status = status := by
  constructor
  · rintro ⟨n, hOther, hStat⟩
    rw [hSound.lineage_extended hEnters hLine] at hOther
    rw [statusAt_extended] at hStat
    rcases hOther with hOld | ⟨rfl, rfl⟩
    · rcases hStat with hAt | ⟨rfl, _⟩
      · exact .inl ⟨n, hOld, hAt⟩
      · rcases Lineage.entry hOld with ⟨_, _, hFound, _⟩
        exact absurd (lt_len hFound) (Nat.lt_irrefl _)
    · rcases hStat with hAt | ⟨_, hNew⟩
      · exact absurd (statusAt_lt_len hAt) (Nat.lt_irrefl _)
      · exact .inr ⟨rfl, hNew⟩
  · rintro (⟨n, hOld, hAt⟩ | ⟨rfl, rfl⟩)
    · exact ⟨n, hOld.mono (extends_extended entry), statusAt_extended.mpr (.inl hAt)⟩
    · exact ⟨tree.len, hEnters.lineage hLine, statusAt_extended.mpr (.inr ⟨rfl, rfl⟩)⟩

section

variable (hSettled : Settled K params now headers tree)
variable (hChildless : ∀ other ∈ headers ++ [header], other.prevBlockhash ≠ K.blockHash header)

include hSettled hChildless

/- The header enters the tree. -/
theorem Settled.inserted (period : List HeaderFacts)
    (hAt : tree.Attaches K params header parent chain)
    (hCulprit : tree.culprit parent = .ok refusal)
    (hEnters : tree.Enters K header parent chain entry)
    (hFate : Fate K params now header chain refusal entry.status)
    (hHealthy : ({ tree with period := period }.extended entry).Healthy K params) :
    Settled K params now (headers ++ [header]) ({ tree with period := period }.extended entry) := by
  have hSound := hSettled.healthy.sound
  -- the chain below is the only one the header fits on
  have hOnly : ∀ {head rest below}, Stands K params now headers (head :: rest) below →
      Follows K params head header → head :: rest = chain ∧ refusalOf K head below = refusal := by
    intro head rest below hStands hFollows
    rcases hSettled.place hStands hFollows with ⟨other, hOther, hBelow, hSame⟩
    rw [hAt.below] at hOther
    cases hOther
    rw [hCulprit] at hSame
    exact ⟨hBelow.unique hAt.lineage, (ok.inj hSame).symm⟩
  refine hSettled.extend hChildless hHealthy ?_ ?_ ?_
  · show (tree.entries ++ [entry]).length ≤ tree.len + 1
    rw [length_append, length_singleton]
    rfl
  · intro other status
    refine (holds_extended (hSound.withPeriod period)
      (hEnters.withPeriod period) hAt.lineage other status).trans
      (or_congr_right ?_)
    constructor
    · rintro ⟨rfl, rfl⟩
      rcases hSettled.below hAt.below hAt.lineage with
        ⟨head, rest, below, rfl, hLinked, hStands, hSame⟩
      rw [hCulprit] at hSame
      cases hSame
      refine ⟨head, rest, below, rfl, hStands, ⟨?_, hLinked, hAt.check⟩, hFate⟩
      -- genesis is in the tree, the header was not
      intro hGenesis
      have hRoot := (hSettled.stands _ _).mpr (.genesis : Stands K params now headers _ _)
      rcases hRoot with ⟨n, hRootLineage, hRootStatus⟩
      have hFound := (hSettled.healthy.tops hRootLineage hRootStatus).found
      rw [← hGenesis, hAt.fresh] at hFound
      cases hFound
    · rintro ⟨head, rest, below, rfl, hStands, hFollows, hOther⟩
      rcases hOnly hStands hFollows with ⟨rfl, hSame⟩
      rw [hSame] at hOther
      exact ⟨rfl, hFate.unique hOther⟩
  · intro head rest below hStands hFollows
    rcases hOnly hStands hFollows with ⟨rfl, hSame⟩
    constructor
    · intro hSpared
      generalize entry.status = status at hFate
      cases hFate with
      | inherits hRefused =>
        rw [hSame, hRefused] at hSpared
        cases hSpared
      | refused _ hCtx _ | accepted _ hCtx _ _ => exact ⟨_, hCtx⟩
    · intro _ _
      rw [← hEnters.chainwork]
      exact U256.beNat_lt _

theorem Settled.placed (hNew : header ∉ headers)
    (hInjective : ∀ other ∈ params.genesis.header :: headers,
      K.blockHash other = K.blockHash header → other = header) (hRoom : tree.len < tree.cap)
    (hPlaced : Placed K params tree header now outcome after) :
    Settled K params now (headers ++ [header]) after := by
  have hHealthy := hPlaced.healthy hSettled.healthy
  cases hPlaced with
  | @duplicate node hKnown =>
    refine hSettled.unplaced hChildless tree.period ?_
    intro parent head rest refusal _ _ _ hFollows
    -- a header of this hash is there, and it is no other
    rcases hSettled.healthy.sound.index.mp hKnown with ⟨entry, hEntry, hHash⟩
    rcases hSettled.healthy.sound.exists_lineage hEntry with ⟨chain, hLine⟩
    rw [(hSettled.healthy.sound.fits hEntry hLine).hash] at hHash
    rcases Lineage.entry hLine with ⟨same, below, hSame, rfl, _⟩
    rw [hEntry] at hSame
    cases hSame
    have hStands := (hSettled.stands _ _).mp ⟨node, hLine, statusAt_of_entry hEntry⟩
    have hOther : entry.header = header := by
      refine hInjective _ ?_ hHash
      rw [mem_cons]
      exact hStands.mem
    rcases hStands.mem with hGenesis | hMem
    · rw [hGenesis] at hHash
      exact absurd hHash.symm hFollows.fresh
    · rw [hOther] at hMem
      exact absurd hMem hNew
  | unchecked _ hCheck =>
    refine hSettled.unplaced hChildless tree.period ?_
    intro _ _ _ _ _ _ _ hFollows
    have hOk := hFollows.check
    rw [hCheck] at hOk
    cases hOk
  | unconnected _ _ hOrphan =>
    refine hSettled.unplaced hChildless tree.period ?_
    intro _ _ _ _ hPar _ _ _
    rw [hOrphan] at hPar
    cases hPar
  | full _ hFull => exact absurd hRoom (Nat.not_lt.mpr hFull)
  | @tooNew above chain context hAt hSpared hCtx hAccept hClock =>
      refine hSettled.unplaced hChildless _ ?_
      intro parent head rest refusal hOther hBelow hCulprit _
      rw [hAt.below] at hOther
      cases hOther
      cases hBelow.unique hAt.lineage
      rw [hSpared] at hCulprit
      cases hCulprit
      refine ⟨fun _ => ⟨context, hCtx⟩, ?_⟩
      intro status hFate
      cases hFate with
      | inherits hRefused => cases hRefused
      | refused _ hCtx' hRefuse =>
        rw [hCtx'.unique hCtx, hAccept] at hRefuse
        cases hRefuse
      | accepted _ _ _ hInTime => exact hInTime hClock
  | inherits hAt hRefused _ hEnters hStat =>
      refine hSettled.inserted hChildless tree.period hAt hRefused hEnters ?_ hHealthy
      rw [hStat]
      exact .inherits rfl
  | refused hAt hSpared hCtx hAccept _ hEnters hStat =>
      refine hSettled.inserted hChildless _ hAt hSpared hEnters ?_ hHealthy
      rw [hStat]
      exact .refused rfl hCtx hAccept
  | accepted hAt hSpared hCtx hAccept hClock _ hEnters hStat =>
      refine hSettled.inserted hChildless _ hAt hSpared hEnters ?_ hHealthy
      rw [hStat]
      exact .accepted rfl hCtx hAccept hClock

end

--------
-- All the Headers
--------

/- The headers presented one after another. -/
def acceptAll (K : Primitives) (params : ChainParams) (now : BlockTime) (tree : HeaderTree)
    (headers : List Header) : Result Empty HeaderTree :=
  headers.foldlM (fun tree header => do
    let (_, tree) ← settle (tree.accept K header params now)
    return tree) tree

theorem acceptAll_cons :
    tree.acceptAll K params now (header :: rest) = .ok after ↔ ∃ outcome middle,
      settle (tree.accept K header params now) = .ok (outcome, middle) ∧
        middle.acceptAll K params now rest = .ok after := by
  simp only [acceptAll, foldlM_cons, bind_eq_ok, pure_inj, Prod.exists]
  constructor
  · rintro ⟨_, ⟨outcome, middle, hAccept, rfl⟩, hRest⟩
    exact ⟨outcome, middle, hAccept, hRest⟩
  · rintro ⟨outcome, middle, hAccept, hRest⟩
    exact ⟨middle, ⟨outcome, middle, hAccept, rfl⟩, hRest⟩

/- A tree of genesis alone. -/
theorem settled_withCap (hTab : params.Tabled K) {cap : Nat}
    (hStart : withCap K params cap = .ok tree) : Settled K params now [] tree := by
  have hHealthy := healthy_withCap hTab hStart
  have hLen : tree.len = 1 := by
    rcases (withCap_eq_ok hTab).mp hStart with ⟨_, rfl⟩
    rfl
  refine ⟨hHealthy, ?_, Nat.le_of_eq hLen, ?_⟩
  · intro chain status
    constructor
    · rintro ⟨n, hLine, hStat⟩
      have hLt := statusAt_lt_len hStat
      rw [hLen] at hLt
      cases Nat.lt_one_iff.mp hLt
      rw [hHealthy.judged.root.mpr rfl] at hStat
      cases hStat
      rw [hLine.unique hHealthy.sound.root]
      exact .genesis
    · intro hStands
      cases hStands with
      | genesis => exact ⟨0, hHealthy.sound.root, hHealthy.judged.root.mpr rfl⟩
      | grow _ hHeader _ _ => cases hHeader
  · intro header hNil
    cases hNil

/- What can be placed is placed. -/
theorem Settled.returns (hTab : params.Tabled K) (hSettled : Settled K params now headers tree)
    (hReady : Placeable K params now headers header) :
    ∃ outcome after, settle (tree.accept K header params now) = .ok (outcome, after) := by
  have hHealthy := hSettled.healthy
  rcases hHealthy.sound.accept_cases hTab hHealthy.judged.bestHeader_lt header now with
    ⟨outcome, after, hCall, _⟩ | ⟨_, parent, chain, hStuck⟩
  · exact ⟨outcome, after, hCall⟩
  rcases hSettled.below hStuck.below hStuck.lineage with
    ⟨head, rest, below, rfl, hLinked, hStands, hCulprit⟩
  have hGenesis : K.blockHash header ≠ K.blockHash params.genesis.header := by
    intro hSame
    have hFound := (hHealthy.tops hHealthy.sound.root (hHealthy.judged.root.mpr rfl)).found
    rw [← hSame, hStuck.fresh] at hFound
    cases hFound
  rcases hReady head rest below hStands ⟨hGenesis, hLinked, hStuck.check⟩ with ⟨hContexts, hWorks⟩
  rcases hStuck.cause with ⟨hSpared, hNone⟩ | ⟨_, hWork, hClock⟩
  · rw [hCulprit] at hSpared
    rcases hContexts (ok.inj hSpared) with ⟨context, hCtx⟩
    exact absurd hCtx (hNone context)
  · have hNoFate := fun status hFate =>
      Nat.not_lt.mpr hWork (hWorks status hFate)
    cases hRefusal : refusalOf K head below with
    | some culprit =>
      rw [hRefusal] at hNoFate
      exact absurd (.inherits rfl) (hNoFate _)
    | none =>
      rw [hRefusal] at hNoFate hCulprit
      rcases hClock hCulprit with ⟨context, hCtx, hInTime⟩
      have hSafe := hTab.acceptHeader_not_panics header context
      rcases hVerdict : acceptHeader header params context with (error | _) | ⟨⟩
      · exact absurd (.refused rfl hCtx hVerdict) (hNoFate _)
      · rw [hVerdict] at hSafe
        exact hSafe.elim
      · exact absurd (.accepted rfl hCtx hVerdict (hInTime hVerdict)) (hNoFate _)

end HeaderTree

/- No header comes before its parent. -/
def ParentsFirst (K : Primitives) (headers : List Header) : Prop :=
  ∀ before header after,
    headers = before ++ header :: after →
      ∀ parent ∈ headers, K.blockHash parent = header.prevBlockhash → parent ∈ before

theorem ParentsFirst.childless {headers done : List Header} {header : Header}
    (hOrder : ParentsFirst K headers) (hNodup : headers.Nodup)
    (hSplit : headers = done ++ header :: rest) :
    header ∉ done ∧ ∀ other ∈ done ++ [header], other.prevBlockhash ≠ K.blockHash header := by
  have hMem : header ∈ headers := by
    rw [hSplit]
    exact mem_append_right _ mem_cons_self
  have hNew : header ∉ done := by
    rw [hSplit, nodup_append] at hNodup
    exact fun hDone => hNodup.2.2 header hDone header mem_cons_self rfl
  refine ⟨hNew, ?_⟩
  intro other hOther hPar
  rcases mem_append.mp hOther with hDone | hLast
  · rcases append_of_mem hDone with ⟨before, mid, rfl⟩
    refine hNew (mem_append_left _ (hOrder before other
      (mid ++ header :: rest) ?_ header hMem hPar.symm))
    rw [hSplit, append_assoc, cons_append]
  · cases mem_singleton.mp hLast
    exact hNew (hOrder done header rest hSplit header hMem hPar.symm)

namespace HeaderTree

theorem Placed.cap (hPlaced : Placed K params tree header now outcome after) :
    after.cap = tree.cap := by
  cases hPlaced <;> rfl

/-
  The tree holds exactly the chains that stand, when the run returns, and it returns when no header
  makes it panic.
-/
theorem acceptAll_settled (hTab : params.Tabled K) (hOrder : ParentsFirst K headers)
    (hNodup : headers.Nodup)
    (hInjective : Set.InjOn K.blockHash {header | header ∈ params.genesis.header :: headers})
    (hRoom : headers.length < tree.cap) {done : List Header} (hSplit : headers = done ++ rest)
    (hSettled : Settled K params now done tree)
    (hRet : (∃ last, tree.acceptAll K params now rest = .ok last) ∨
      ∀ header ∈ headers, Placeable K params now headers header) :
    ∃ last, tree.acceptAll K params now rest = .ok last ∧ Settled K params now headers last := by
  induction rest generalizing done tree with
  | nil =>
    rw [append_nil] at hSplit
    exact ⟨tree, rfl, hSplit ▸ hSettled⟩
  | cons header rest ih =>
    have hAccept : ∃ outcome middle,
        settle (tree.accept K header params now) = .ok (outcome, middle) ∧ ((∃ last,
          middle.acceptAll K params now rest = .ok last) ∨
          ∀ header ∈ headers, Placeable K params now headers header) := by
      rcases hRet with ⟨last, hLast⟩ | hReady
      · rcases acceptAll_cons.mp hLast with ⟨outcome, middle, hAccept, hRest⟩
        exact ⟨outcome, middle, hAccept, .inl ⟨last, hRest⟩⟩
      · have hMem : header ∈ headers := by
          rw [hSplit]
          exact mem_append_right _ mem_cons_self
        have hSub : done ⊆ headers := by
          rw [hSplit]
          exact subset_append_left _ _
        rcases hSettled.returns hTab (fun head chain below hStands =>
              hReady header hMem head chain below (hStands.mono hSub)) with
          ⟨outcome, middle, hAccept⟩
        exact ⟨outcome, middle, hAccept, .inr hReady⟩
    rcases hAccept with ⟨outcome, middle, hAccept, hRet⟩
    have hPlaced := hSettled.healthy.accept hTab hAccept
    rcases hOrder.childless hNodup hSplit with ⟨hNew, hChildless⟩
    have hShort := hSettled.len_le
    have hLen := congrArg List.length hSplit
    rw [length_append, length_cons] at hLen
    have hDone : ∀ other ∈ params.genesis.header :: done,
        K.blockHash other = K.blockHash header → other = header := by
      intro other hOther hHash
      refine hInjective ?_ ?_ hHash
      · rcases mem_cons.mp hOther with rfl | hOther
        · exact mem_cons_self
        · rw [hSplit]
          exact mem_cons_of_mem _ (mem_append_left _ hOther)
      · rw [hSplit]
        exact mem_cons_of_mem _ (mem_append_right _ mem_cons_self)
    have hNext := hSettled.placed hChildless hNew hDone (by omega) hPlaced
    rcases ih (hPlaced.cap ▸ hRoom) (by rw [hSplit, append_assoc]; rfl) hNext hRet with
      ⟨last, hRest, hLast⟩
    exact ⟨last, acceptAll_cons.mpr ⟨outcome, middle, hAccept, hRest⟩, hLast⟩

/- Two trees say the same of every block. -/
structure Agree (left right : HeaderTree) : Prop where
  hashes : ∀ hash, (left.nodeOf hash).isSome = (right.nodeOf hash).isSome
  entries : ∀ hash m n x y,
      left.nodeOf hash = some m →
        right.nodeOf hash = some n →
          left.entries[m]? = some x →
            right.entries[n]? = some y →
              x.height = y.height ∧ x.chainwork = y.chainwork ∧ x.status = y.status
  best : left.workAt left.bestHeader = right.workAt right.bestHeader

section

variable {left right : HeaderTree} (hLeft : left.Healthy K params) (hRight : right.Healthy K params)

include hLeft hRight

/- What one tree holds the other holds. -/
theorem Healthy.transfer (hHolds : ∀ chain status, left.Holds chain status →
        right.Holds chain status) {hash : BlockHash} {m : NodeId} {x : HeaderEntry}
    (hNode : left.nodeOf hash = some m) (hEntry : left.entries[m]? = some x) :
    ∃ n y, right.nodeOf hash = some n ∧ right.entries[n]? = some y ∧ x.height = y.height ∧
      x.chainwork = y.chainwork ∧ x.status = y.status := by
  rcases hLeft.sound.index.mp hNode with ⟨same, hSame, hHash⟩
  rw [hEntry] at hSame
  cases hSame
  rcases hLeft.sound.exists_lineage hEntry with ⟨chain, hLine⟩
  rcases Lineage.entry hLine with ⟨same, rest, hSame, rfl, _⟩
  rw [hEntry] at hSame
  cases hSame
  have hFits := hLeft.sound.fits hEntry hLine
  rcases hHolds _ _ ⟨m, hLine, statusAt_of_entry hEntry⟩ with ⟨n, hOther, hStat⟩
  have hFound := (hRight.tops hOther hStat).found
  rcases statusAt_eq_some.mp hStat with ⟨y, hY, hKind⟩
  have hFits' := hRight.sound.fits hY hOther
  refine ⟨n, y, ?_, hY, ?_, ?_, hKind.symm⟩
  · rwa [← hHash, hFits.hash]
  · apply Subtype.ext
    have hLow := hFits.height
    have hHigh := hFits'.height
    omega
  · apply U256.beNat_injective
    rw [hFits.chainwork, hFits'.chainwork]

theorem Healthy.best_le (hHolds : ∀ chain status, left.Holds chain status →
      right.Holds chain status) : left.workAt left.bestHeader ≤ right.workAt right.bestHeader := by
  rcases hLeft.judged.best.spared with ⟨status, hStat, hSpared⟩
  rcases statusAt_eq_some.mp hStat with ⟨x, hEntry, rfl⟩
  rcases hLeft.transfer hRight hHolds (hLeft.sound.index.mpr ⟨x, hEntry, rfl⟩) hEntry with
    ⟨n, y, _, hY, _, hWork, hSame⟩
  have hMost := hRight.judged.best.most (lt_len hY) (statusAt_of_entry hY) (hSame ▸ hSpared)
  rw [workAt_eq hEntry, hWork, ← workAt_eq hY]
  exact hMost.1

theorem Healthy.agree (hHolds : ∀ chain status, left.Holds chain status ↔
    right.Holds chain status) : left.Agree right := by
  have hOnto := fun chain status => (hHolds chain status).mp
  have hBack := fun chain status => (hHolds chain status).mpr
  refine ⟨?_, ?_, ?_⟩
  · intro hash
    rw [Bool.eq_iff_iff, Option.isSome_iff_exists, Option.isSome_iff_exists]
    constructor
    · rintro ⟨m, hNode⟩
      rcases hLeft.sound.index.mp hNode with ⟨x, hEntry, _⟩
      rcases hLeft.transfer hRight hOnto hNode hEntry with ⟨n, _, hFound, _⟩
      exact ⟨n, hFound⟩
    · rintro ⟨n, hNode⟩
      rcases hRight.sound.index.mp hNode with ⟨y, hEntry, _⟩
      rcases hRight.transfer hLeft hBack hNode hEntry with ⟨m, _, hFound, _⟩
      exact ⟨m, hFound⟩
  · intro hash m n x y hm hn hx hy
    rcases hLeft.transfer hRight hOnto hm hx with ⟨other, z, hOther, hz, hSame⟩
    rw [hn] at hOther
    cases hOther
    rw [hy] at hz
    cases hz
    exact hSame
  · exact Nat.le_antisymm (hLeft.best_le hRight hOnto) (hRight.best_le hLeft hBack)

end

end HeaderTree

open HeaderTree

/-
  Two orders of the same headers, in which no header comes before its parent, give trees that agree
  on every block.
-/
theorem accept_order {K : Primitives} {params : ChainParams} (hTab : params.Tabled K)
    {cap : Nat} {tree : HeaderTree} (hStart : HeaderTree.withCap K params cap = .ok tree)
    {headers others : List Header} (hNodup : headers.Nodup) (hPerm : headers.Perm others)
    (hFst : ParentsFirst K headers) (hSnd : ParentsFirst K others)
    (hRoom : headers.length < cap)
    (hInjective : Set.InjOn K.blockHash {header | header ∈ params.genesis.header :: headers})
    {now : BlockTime} {left : HeaderTree} (hLeft : tree.acceptAll K params now headers = .ok left) :
    ∃ right,
      tree.acceptAll K params now others = .ok right ∧
        left.Agree right := by
  have hSettled : Settled K params now [] tree := settled_withCap hTab hStart
  have hCap : tree.cap = cap := by
    rcases (withCap_eq_ok hTab).mp hStart with ⟨_, rfl⟩
    rfl
  have hBack : others ⊆ headers := hPerm.symm.subset
  rcases acceptAll_settled hTab hFst hNodup hInjective
      (hCap ▸ hRoom) (nil_append _).symm hSettled
      (.inl ⟨left, hLeft⟩) with
    ⟨same, hSame, hLeftSettled⟩
  rw [hLeft] at hSame
  cases hSame
  have hInjective' : Set.InjOn K.blockHash {header | header ∈ params.genesis.header :: others} := by
    refine hInjective.mono ?_
    intro header hHeader
    rcases mem_cons.mp hHeader with rfl | hMem
    · exact mem_cons_self
    · exact mem_cons_of_mem _ (hBack hMem)
  have hReady : ∀ header ∈ others, Placeable K params now others header := by
    intro header hHeader head rest below hStands
    exact hLeftSettled.ready header (hBack hHeader) head rest below (hStands.mono hBack)
  rcases acceptAll_settled hTab hSnd (hPerm.nodup_iff.mp hNodup) hInjective'
      (by rw [hCap, ← hPerm.length_eq]; exact hRoom)
      (nil_append _).symm hSettled (.inr hReady) with
    ⟨right, hRight, hRightSettled⟩
  refine ⟨right, hRight, hLeftSettled.healthy.agree hRightSettled.healthy ?_⟩
  intro chain status
  rw [hLeftSettled.stands, hRightSettled.stands]
  exact ⟨Stands.mono hPerm.subset, Stands.mono hBack⟩

/- An order in which nobody precedes their parent. -/
theorem parentsFirst_of_pairwise {headers : List Header}
    (hPairs : headers.Pairwise fun earlier later => K.blockHash later ≠ earlier.prevBlockhash)
    (hSelf : ∀ header ∈ headers, K.blockHash header ≠ header.prevBlockhash) :
    ParentsFirst K headers := by
  rintro before header after rfl parent hPar hHash
  rcases mem_append.mp hPar with hBefore | hRest
  · exact hBefore
  rcases mem_cons.mp hRest with rfl | hAfter
  · exact absurd hHash (hSelf parent hPar)
  · rw [pairwise_append, pairwise_cons] at hPairs
    exact absurd hHash (hPairs.2.1.1 parent hAfter)

--------
-- Two Orders of Three Headers
--------

end

namespace SmallChain

theorem orders_return :
    (do
      let tree ← HeaderTree.withCap crypto.primitives params 8
      let tree ← tree.acceptAll crypto.primitives params now [left, right, top]
      return tree.bestHeader) = (.ok 3 : Result Empty NodeId) := by
  decide +kernel

/- `left` may come first or last. -/
theorem accept_order_left :
    ∃ tree fromLeft fromRight,
      HeaderTree.withCap crypto.primitives params 8 = .ok tree ∧
        tree.acceptAll crypto.primitives params now [left, right, top] = .ok fromLeft ∧
        fromLeft.bestHeader = 3 ∧
        tree.acceptAll crypto.primitives params now [right, top, left] = .ok fromRight ∧
        fromLeft.Agree fromRight := by
  have hRet := orders_return
  simp only [bind_eq_ok, pure_inj] at hRet
  rcases hRet with ⟨tree, hStart, fromLeft, hLeft, hBest⟩
  have hNodup : [left, right, top].Nodup := by decide +kernel
  have hPerm : [left, right, top].Perm [right, top, left] := by decide +kernel
  have hFst : ParentsFirst crypto.primitives [left, right, top] :=
    parentsFirst_of_pairwise (by decide +kernel) (by decide +kernel)
  have hSnd : ParentsFirst crypto.primitives [right, top, left] :=
    parentsFirst_of_pairwise (by decide +kernel) (by decide +kernel)
  have hInjective : ∀ a ∈ params.genesis.header :: [left, right, top],
        ∀ b ∈ params.genesis.header :: [left, right, top],
          crypto.primitives.blockHash a = crypto.primitives.blockHash b → a = b := by
    decide +kernel
  rcases accept_order tabled hStart hNodup hPerm hFst hSnd (by decide)
      (fun a ha b hb hHash => hInjective a ha b hb hHash)
      hLeft with
    ⟨fromRight, hRight, hAgree⟩
  exact ⟨tree, fromLeft, fromRight, hStart, hLeft, hBest, hRight, hAgree⟩

end SmallChain

end Bitmigo
