import Bitmigo.Store.Torn

/-
  What the files of the index have, wherever a call is cut short, in a rewrite too.

  Key definitions include:
    * `Journaled`, the beginning of some records behind a header
    * `Logged`, an index with nothing else in it
    * `Journal.Rewriting`

  Key theorems include:
    * `Journaled.recordsIn_subset`
    * `Journal.openIn_ends`, `Journal.rewrite_ends` and `Journal.append_ends`
-/

namespace Bitmigo

open Result List Directory Device Option

/- Behind its header the file has the beginning of some of these records. -/
def Journaled (K : Primitives) (encoded : List IndexRecord) (bytes : Bytes) : Prop :=
  ∃ whole ⊆ encoded, bytes.drop fileHeaderBytes <+: frames K whole

/- So has every file of the index, and an open journal has its own. -/
structure Logged (K : Primitives) (encoded : List IndexRecord) (d : Directory FileName)
    (handle : Option Nat) : Prop where
  every : d.Every (Journaled K encoded)
  opened : handle.isSome → d.find journalFile = handle

section

variable {K : Primitives} {genesis : BlockHash} {encoded whole : List IndexRecord} {bytes : Bytes}
variable {tree : HeaderTree}

theorem journaled_nil : Journaled K encoded [] :=
  ⟨[], nil_subset _, nil_prefix⟩

theorem journaled_of_prefix (genesis : BlockHash) (hWhole : whole ⊆ encoded)
    (hPrefix : bytes <+: fileHeader genesis ++ frames K whole) : Journaled K encoded bytes := by
  have hRest := hPrefix.drop fileHeaderBytes
  rw [drop_left' (length_fileHeader genesis)] at hRest
  exact ⟨whole, hWhole, hRest⟩

theorem Journaled.recordsIn_subset (hBytes : Journaled K encoded bytes) :
    recordsIn K (bytes.drop fileHeaderBytes) ⊆ encoded := by
  rcases hBytes with ⟨whole, hWhole, hPrefix⟩
  exact List.Subset.trans (Bitmigo.recordsIn_subset hPrefix) hWhole

theorem Journaled.take (hBytes : Journaled K encoded bytes) (kept : Nat) :
    Journaled K encoded (bytes.take kept) := by
  rcases hBytes with ⟨whole, hWhole, hPrefix⟩
  exact ⟨whole, hWhole, ((List.take_prefix kept bytes).drop _).trans hPrefix⟩

theorem Journaled.mono {more : List IndexRecord} (hBytes : Journaled K encoded bytes) :
    Journaled K (more ++ encoded) bytes := by
  rcases hBytes with ⟨whole, hWhole, hPrefix⟩
  exact ⟨whole, subset_append_of_subset_right more hWhole, hPrefix⟩

/- A tree's records are those of all its entries. -/
theorem recordsFor_subset (tree : HeaderTree) (nodes : List NodeId) :
    recordsFor tree nodes ⊆ recordsFor tree (List.range tree.len) := by
  intro record hMem
  rcases mem_filterMap.mp hMem with ⟨node, _, hRecord⟩
  refine mem_filterMap.mpr ⟨node, List.mem_range.mpr ?_, hRecord⟩
  rcases bind_eq_some_iff.mp hRecord with ⟨entry, hEntry, _⟩
  exact (List.getElem?_eq_some_iff.mp hEntry).1

namespace Journal

open Index

theorem openIn_ends {device : Device FileName}
    (hEvery : device.directory.Every (Journaled K encoded)) :
    (openIn genesis).Ends (fun journal t => Logged K encoded t.directory (some journal.handle))
      (fun t => t.directory.Every (Journaled K encoded)) device := by
  have hOpen (t : Device FileName) (hNow : t.directory.Every (Journaled K encoded)) :
      (do return ⟨← openExisting journalFile, 0⟩ : Program _ StoreStop Journal).Ends
        (fun journal t => Logged K encoded t.directory (some journal.handle))
        (fun t => t.directory.Every (Journaled K encoded)) t := by
    refine .bind (ends_openExisting hNow fun handle u hFind hNow => ?_)
    exact .of_eq rfl ⟨hNow, fun _ => hFind⟩
  unfold openIn
  refine .bind (.of_eq rfl ?_)
  split
  · exact .bind (Program.ends_lift hEvery fun _ _ => hOpen _ hEvery)
  · refine .bind (ends_create hEvery journaled_nil fun handle made hInode hMade => ?_)
    refine .bind (ends_writeAll hMade ?_ fun wrote _ hWrote => ?_)
    · intro inode hFound kept
      cases hInode.symm.trans hFound
      refine journaled_of_prefix genesis (nil_subset _) ?_
      rw [frames_nil, append_nil]
      exact take_prefix kept _
    refine .bind (ends_callAtomic hWrote (hWrote.flush _) fun _ synced _ hSynced => ?_)
    exact .bind (ends_callAtomic hSynced hSynced fun _ named _ hNamed => hOpen named hNamed)

/- A rewrite on its way: what has reached the file, and then what is held back. -/
structure Rewriting (K : Primitives) (tree : HeaderTree) (genesis : BlockHash)
    (encoded : List IndexRecord) (handle : Nat) (done : List NodeId) (held : Bytes)
    (index : Index) : Prop where
  every : index.device.directory.Every (Journaled K encoded)
  written : ∃ inode, index.device.directory.inodes[handle]? = some inode ∧
      inode.bytes ++ held = fileHeader genesis ++ frames K (recordsFor tree done)

section

variable {handle : Nat} {done : List NodeId} {held : Bytes} {index : Index}
variable (hTree : ∀ nodes, recordsFor tree nodes ⊆ encoded)

include hTree

theorem Rewriting.write {Q : Unit → Index → Prop}
    (hRewriting : Rewriting K tree genesis encoded handle done held index)
    (hDone : ∀ t, Rewriting K tree genesis encoded handle done [] t → Q () t) :
    (onDevice (writeAll handle held)).Ends Q
      (fun t => t.device.directory.Every (Journaled K encoded)) index := by
  rcases hRewriting with ⟨hEvery, inode, hInode, hBytes⟩
  refine .within (ends_writeAll hEvery ?_ fun t hSame hWrote => ?_)
  · intro other hOther kept
    cases hInode.symm.trans hOther
    refine journaled_of_prefix genesis (hTree done) ?_
    rw [← hBytes]
    exact (prefix_append_right_inj _).mpr (List.take_prefix kept _)
  · refine hDone _ ⟨hWrote, { inode with bytes := inode.bytes ++ held }, ?_, ?_⟩
    · show t.directory.inodes[handle]? = _
      rw [hSame, getElem?_extend, hInode]
      rfl
    · rwa [append_nil]

theorem Rewriting.node (node : NodeId) {buffer : Bytes × Nat}
    (hRewriting : Rewriting K tree genesis encoded handle done buffer.1 index) :
    (rewriteNode K tree handle buffer node).Ends
      (fun next => Rewriting K tree genesis encoded handle (done ++ [node]) next.1)
      (fun t => t.device.directory.Every (Journaled K encoded)) index := by
  rcases hRewriting with ⟨hEvery, inode, hInode, hBytes⟩
  refine .bind (Program.ends_lift hEvery fun record hRecord => ?_)
  rcases recordOf_eq_ok (lift_eq_ok.mp hRecord) with ⟨hFrames, _⟩
  have hNext : inode.bytes ++ (buffer.1 ++ record.toList.flatten) =
      fileHeader genesis ++ frames K (recordsFor tree (done ++ [node])) := by
    rw [hFrames, ← append_assoc, hBytes, append_assoc, ← frames_append]
    exact congrArg (_ ++ frames K ·) filterMap_append.symm
  cases record with
  | none =>
    rw [toList_none, flatten_nil, append_nil] at hNext
    exact .of_eq rfl ⟨hEvery, inode, hInode, hNext⟩
  | some bytes =>
    rw [toList_some, flatten_singleton] at hNext
    have hHeld : Rewriting K tree genesis encoded handle (done ++ [node]) (buffer.1 ++ bytes)
        index := ⟨hEvery, inode, hInode, hNext⟩
    dsimp only
    split
    · exact .bind (hHeld.write hTree fun _ hAfter => .of_eq rfl hAfter)
    · exact .of_eq rfl hHeld

theorem rewrite_ends (hEvery : index.device.directory.Every (Journaled K encoded)) :
    (rewrite K tree).Ends (fun _ t => Logged K encoded t.device.directory (some t.journal.handle))
      (fun t => t.device.directory.Every (Journaled K encoded)) index := by
  refine .bind (Program.ends_lift hEvery fun genesis _ => ?_)
  refine .bind (.within (ends_create hEvery journaled_nil fun handle made hInode hMade => ?_))
  have hStart : Rewriting K tree genesis.hash encoded handle [] (fileHeader genesis.hash)
      ⟨made, index.journal⟩ := ⟨hMade, _, hInode, (append_nil _).symm⟩
  have hLoop := Program.ends_foldlM (J := fun done (buffer : Bytes × Nat) =>
      Rewriting K tree genesis.hash encoded handle done buffer.1)
    (b := (fileHeader genesis.hash, 0)) (fun _ node _ _ hDone => hDone.node hTree node)
    (List.range tree.len) [] hStart
  refine .bind (hLoop.mono fun buffer t hDone => ?_)
  refine .bind (hDone.write hTree fun _ hWrote => ?_)
  -- the file is synced and put in the journal's place
  refine .bind (.within (ends_callAtomic hWrote.every (hWrote.every.flush _)
    fun _ _ _ hSynced => ?_))
  refine .bind (.within (ends_callAtomic hSynced ?_ fun _ _ _ hRenamed => ?_))
  · cases find _ journalTemp with
    | some _ | none => exact hSynced
  refine .bind (.within (ends_callAtomic hRenamed hRenamed fun _ _ _ hNamed => ?_))
  refine .bind (.within (ends_openExisting hNamed fun handle _ hFind hOpened => ?_))
  exact .of_eq rfl ⟨hOpened, fun _ => hFind⟩

/- An append to whole records, and the rewrite behind it. -/
theorem append_ends {dirty : List NodeId} (hEnds : index.EndsWhole K genesis)
    (hLogged : Logged K encoded index.device.directory (some index.journal.handle)) :
    (append K dirty tree).Ends
      (fun _ t => Logged K encoded t.device.directory (some t.journal.handle))
      (fun t => t.device.directory.Every (Journaled K encoded)) index := by
  rcases hLogged with ⟨hEvery, hOpened⟩
  refine .bind (Program.ends_lift hEvery fun batch hBatch => ?_)
  rcases batch with ⟨bytes, written⟩
  rcases batchOf_eq_ok (lift_eq_ok.mp hBatch) with ⟨rfl, _⟩
  dsimp only
  split
  · exact .of_eq rfl ⟨hEvery, hOpened⟩
  refine .bind (.of_eq rfl (.bind (.within (ends_writeAll hEvery ?_ fun wrote hSame hWrote => ?_))))
  · intro inode hInode kept
    rcases hEnds with ⟨whole, hFile⟩
    rw [contents_eq_some (hOpened rfl) hInode, Option.some.injEq] at hFile
    -- the records that are there were encoded before
    have hKnown := (hEvery inode (mem_of_getElem? hInode)).recordsIn_subset
    rw [hFile, drop_left' (length_fileHeader genesis), ← append_nil (frames K whole),
      recordsIn_frames torn_nil] at hKnown
    refine journaled_of_prefix genesis (append_subset.mpr ⟨hKnown, hTree dirty⟩) ?_
    rw [hFile, frames_append, ← append_assoc]
    exact (prefix_append_right_inj _).mpr (List.take_prefix kept _)
  refine .bind (.within (ends_callAtomic hWrote (hWrote.flush _) fun _ synced hFlush hSynced => ?_))
  refine .bind (.of_eq rfl (.bind (.bind (.of_eq rfl ?_))))
  split
  · refine .of_eq rfl (.of_eq rfl ⟨hSynced, fun _ => ?_⟩)
    show synced.directory.find journalFile = _
    rw [← (Prod.mk.inj hFlush).2, hSame]
    exact hOpened rfl
  · refine (rewrite_ends hTree ?_).mono fun _ _ hAfter => .of_eq rfl hAfter
    exact hSynced

end

end Journal

end

end Bitmigo
