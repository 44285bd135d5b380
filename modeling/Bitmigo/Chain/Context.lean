import Bitmigo.Chain.Run

/-
  A block's context is fixed for ever.

  Key theorems include:
    * `context_fixed`, whatever is called later, the context of a block is the one `accept`
      returned, and the one its parent's chain gives
-/

namespace Bitmigo

open HeaderTree Result Crypto

/-
  Whatever is called later, the context of a block is the one `accept` returned, and the one its
  parent's chain gives.
-/
theorem context_fixed {K : Primitives} {params : ChainParams} (hTab : params.Tabled K)
    {cap : Nat} {log : List (Call × Answer)} {tree : HeaderTree}
    (hRun : TreeRun K params cap log tree)
    {header : Header} {now : BlockTime} {node : NodeId} {context : Context} {accepted : HeaderTree}
    (hAccept : tree.accept K header params now = .ok (.first node context, accepted))
    {later : HeaderTree} (hLater : Later K params accepted later) :
    ∃ entry parent chain after,
      later.entries[node]? = some entry ∧
        entry.header = header ∧
        entry.parent = some parent ∧
        later.Lineage parent chain ∧
        IsContext K params chain header context ∧
        later.contextOf node params = .ok (context, after) := by
  have hHealthy := hRun.healthy hTab
  have hSettled : Result.settle (tree.accept K header params now) =
        .ok (.ok (.first node context), accepted) := by
    rw [hAccept, settle_ok]
  have hPlaced := hHealthy.accept hTab hSettled
  rcases Later.healthy hTab (hPlaced.healthy hHealthy) hLater with ⟨hHealthyLater, hExtends⟩
  -- where the accepted header stands, now and later
  rcases hPlaced.first with ⟨parent, chain, hNode, hLine, hCtx⟩
  rcases view_eq_some.mp (hExtends hNode) with ⟨entry, hEntry, hHeader, hPar⟩
  have hLineageLater := hLine.mono hExtends
  have hSelf : later.Lineage node (entry.header :: chain) := by
    refine .child ?_ hLineageLater
    rw [← hPar, view_of_entry hEntry]
  refine ⟨entry, parent, chain,
    { later with
      period := chainPeriod params.intervalOf chain },
    hEntry, hHeader, hPar, hLineageLater, hCtx, ?_⟩
  rw [contextOf, entry_eq hEntry, ok_bind, hPar, expect_some, ok_bind,
    (hHealthyLater.sound.fits hEntry hSelf).hash, hHeader]
  exact (hHealthyLater.sound.contextFor_eq_ok hTab hLineageLater).mpr ⟨hCtx, rfl⟩

--------
-- A Small Chain
--------

/-
  Three headers mined on regtest: `left` and `right` on top of genesis, and `top` on top of `right`.
-/
namespace SmallChain

def genesisHash : Hash32 := hash32
  0x06226e46111a0b59caaf126043eb5bbf28c34f3a5e332a1fc7b2b73cf188910f

def left : Header where
  version := 4
  prevBlockhash := genesisHash
  merkleRoot := hash32 0xa1a1a1a1a1a1a1a1a1a1a1a1a1a1a1a1a1a1a1a1a1a1a1a1a1a1a1a1a1a1a1a1
  time := 1296688603
  bits := 0x207fffff
  nonce := 0

def right : Header where
  version := 4
  prevBlockhash := genesisHash
  merkleRoot := hash32 0xb1b1b1b1b1b1b1b1b1b1b1b1b1b1b1b1b1b1b1b1b1b1b1b1b1b1b1b1b1b1b1b1
  time := 1296688603
  bits := 0x207fffff
  nonce := 1

def rightHash : Hash32 := hash32
  0x712cf4628527e8a485cdd59f0be9690186e2f4e73378e9d1e44100e1bc1e616b

def top : Header where
  version := 4
  prevBlockhash := rightHash
  merkleRoot := hash32 0xb2b2b2b2b2b2b2b2b2b2b2b2b2b2b2b2b2b2b2b2b2b2b2b2b2b2b2b2b2b2b2b2
  time := 1296688604
  bits := 0x207fffff
  nonce := 2

/- The first of the two hashes of each header. -/
def genesisInner : Hash32 := hash32
  0x6d70f6956fb70359ed8346c65ef450be459cada75445e4363575a54e47ca417d

def leftInner : Hash32 := hash32
  0x543ff6b2b031782835e18b4a8ebb9523a8abec00ae19f82438671eabb8b998f3

def rightInner : Hash32 := hash32
  0x91d8b30cefc28bfd2d67b92f45e21e35eb0483c68d9268380823a46e6774587f

def topInner : Hash32 := hash32
  0x7a005751a1b5e6bdcdaad6486b51fbf4bf610eaa14438105fe24cfb76964a0ae

/- The values of the hash function on these headers. -/
def table : List (Bytes × Hash32) := [
  (Encoding.header (Crypto.genesisBlock .regtest).header, genesisInner),
  (genesisInner.val, genesisHash),
  (Encoding.header left, leftInner),
  (leftInner.val, hash32 0x2518460fc9fccff4b8a05fd6afa90caad1dd6e354edf25261579d512bab45029),
  (Encoding.header right, rightInner),
  (rightInner.val, rightHash),
  (Encoding.header top, topInner),
  (topInner.val, hash32 0xf6a068d9e57fcf27f7c1fda869ee5b222da40ee5f06999e9fd7701f46099bd0e)]

def crypto : Crypto := ofSha256 table

def params : ChainParams :=
  ChainParams.regtestTable crypto.primitives default

theorem tabled : params.Tabled crypto.primitives :=
  ChainParams.tabled_of_isOk (by decide +kernel)

/- A clock at which the three headers are not too new. -/
def now : BlockTime := 1296688604

/- The tree some calls leave. -/
def grown (calls : List Call) : Result Empty HeaderTree := do
  let tree ← HeaderTree.withCap crypto.primitives params 8
  tree.play crypto.primitives params calls

theorem run_of_grown {calls : List Call} {tree : HeaderTree} (hGrown : grown calls = .ok tree) :
    ∃ log, TreeRun crypto.primitives params 8 log tree := by
  simp only [grown, bind_eq_ok] at hGrown
  rcases hGrown with ⟨start, hStart, hPlay⟩
  rcases (TreeRun.start hStart).play hPlay with ⟨log, hRun, _⟩
  exact ⟨log, hRun⟩

/- The tree once `right` and `top` are accepted. -/
def climb : Result Empty HeaderTree :=
  grown [.accept right now, .accept top now]

/- `left` is connected. -/
def connectLeft : List Call := [
  .accept left now, .blockChecked 1 { file := 0, offset := 0, len := 81 },
  .connected 1 { file := 0, offset := 0, len := 1 }]

/- `left` is accepted on the first tree, and later `right`, the bytes of `left` and `top` arrive. -/
def growth : Result Empty Bool := do
  let tree ← HeaderTree.withCap crypto.primitives params 8
  let (outcome, tree) ← Result.settle (tree.accept crypto.primitives left params now)
  match outcome with
  | .ok (.first node _) =>
    let later ← tree.play crypto.primitives params [
      .accept right now, .blockChecked node { file := 0, offset := 0, len := 81 }, .accept top now]
    return decide (later.bestHeader = 3)
  | _ => return false

theorem growth_returns : growth = .ok true := by decide +kernel

/- The tree the later calls leave still gives the context. -/
theorem context_fixed_left :
    ∃ log tree node context accepted later,
      TreeRun crypto.primitives params 8 log tree ∧
        tree.accept crypto.primitives left params now = .ok (.first node context, accepted) ∧
        Later crypto.primitives params accepted later ∧
        later.bestHeader = 3 ∧
        ∃ entry parent chain after,
          later.entries[node]? = some entry ∧
            entry.header = left ∧
            entry.parent = some parent ∧
            later.Lineage parent chain ∧
            IsContext crypto.primitives params chain left context ∧
            later.contextOf node params = .ok (context, after) := by
  have hGrowth := growth_returns
  simp only [growth, bind_eq_ok] at hGrowth
  rcases hGrowth with ⟨tree, hStart, ⟨outcome, accepted⟩, hAccept, hRest⟩
  split at hRest
  · rename_i node context hOutcome
    cases hOutcome
    simp only [bind_eq_ok, pure_inj, decide_eq_true_eq] at hRest
    rcases hRest with ⟨later, hPlay, hBest⟩
    have hRun : TreeRun crypto.primitives params 8 [] tree := .start hStart
    have hFst := settle_eq_ok.mp hAccept
    have hLater : Later crypto.primitives params accepted later := Later.play .refl hPlay
    exact ⟨[], tree, node, context, accepted, later, hRun,
      hFst, hLater, hBest, context_fixed tabled hRun hFst hLater⟩
  · cases hRest

end SmallChain

end Bitmigo
