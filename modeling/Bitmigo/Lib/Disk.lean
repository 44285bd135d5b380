import Bitmigo.Lib.Program
import Mathlib.Data.List.Infix

/-
  A directory of append-only files on a disk that can fail, and the system calls that reach it.

  Key definitions include:
    * `Directory`
    * `Directory.Grows`, what calls that never overwrite keep
    * `Directory.Survives`, what a crash may leave
    * `Directory.Every`, what holds of the bytes of all files
    * `Device` and `CallFate`
    * `Device.writeAll`, `Device.syncAll` and the other calls

  A file is an inode, named by the entries of its directory. An inode knows the length its last
  `sync_all` covered, and a directory the entries its own last sync covered. The device decides how
  each call goes: a failed write may have written any number of its bytes, and so may one that a
  crash caught.
-/

open List Except Option

--------
-- Directories
--------

/- The bytes of one file. -/
structure Inode where
  bytes : List UInt8
  -- how many of them the last sync covered
  synced : Nat
  deriving DecidableEq

/- A directory and the files it has ever named. -/
structure Directory (ν : Type) where
  inodes : List Inode
  entries : List (ν × Nat)
  -- the entries its last sync covered
  durable : List (ν × Nat)
  -- an entry names a file there is
  named : ∀ entry ∈ entries, entry.2 < inodes.length

namespace Directory

variable {ν : Type}

theorem named_empty : ∀ entry ∈ ([] : List (ν × Nat)), entry.2 < ([] : List Inode).length :=
  forall_mem_nil _

/- A directory with nothing in it. -/
def empty : Directory ν := ⟨[], [], [], named_empty⟩

theorem named_make (d : Directory ν) (name : ν) :
    ∀ entry ∈ (name, d.inodes.length) :: d.entries,
      entry.2 < (d.inodes ++ [Inode.mk [] 0]).length := by
  have hNamed := d.named
  simp only [mem_cons, length_append, length_singleton]
  rintro entry (rfl | hEntry)
  · exact Nat.lt_succ_self _
  · exact Nat.lt_succ_of_lt (hNamed entry hEntry)

/- An empty file under a name. -/
def make (d : Directory ν) (name : ν) : Directory ν where
  inodes := d.inodes ++ [Inode.mk [] 0]
  entries := (name, d.inodes.length) :: d.entries
  durable := d.durable
  named := d.named_make name

theorem named_modify (d : Directory ν) (handle : Nat) (change : Inode → Inode) :
    ∀ entry ∈ d.entries, entry.2 < (d.inodes.modify handle change).length := by
  rw [length_modify]
  exact d.named

/- Change one file. -/
def modifyInode (d : Directory ν) (handle : Nat) (change : Inode → Inode) : Directory ν where
  inodes := d.inodes.modify handle change
  entries := d.entries
  durable := d.durable
  named := d.named_modify handle change

/- Write at the end of a file. -/
def extend (d : Directory ν) (handle : Nat) (bytes : List UInt8) : Directory ν :=
  d.modifyInode handle fun inode =>
    { inode with bytes := inode.bytes ++ bytes }

/- Make a file's bytes durable. -/
def flush (d : Directory ν) (handle : Nat) : Directory ν :=
  d.modifyInode handle fun inode =>
    { inode with synced := inode.bytes.length }

/- Take all of a file's bytes away. -/
def truncate (d : Directory ν) (handle : Nat) : Directory ν :=
  d.modifyInode handle fun _ => ⟨[], 0⟩

/- Make the entries durable. -/
def flushEntries (d : Directory ν) : Directory ν where
  inodes := d.inodes
  entries := d.entries
  durable := d.entries
  named := d.named

theorem getElem?_extend (d : Directory ν) (handle : Nat) (bytes : List UInt8) :
    (d.extend handle bytes).inodes[handle]? = d.inodes[handle]?.map fun inode =>
        { inode with bytes := inode.bytes ++ bytes } := by
  simp [extend, modifyInode]

--------
-- What Every File Is
--------

/- All the files there ever were have such bytes. -/
def Every (P : List UInt8 → Prop) (d : Directory ν) : Prop :=
  ∀ inode ∈ d.inodes, P inode.bytes

variable {d : Directory ν} {P : List UInt8 → Prop} {handle : Nat}

theorem Every.make (hEvery : d.Every P) (hNone : P []) (name : ν) : (d.make name).Every P := by
  intro inode hMem
  rcases mem_append.mp hMem with hOld | hNew
  · exact hEvery inode hOld
  · rwa [mem_singleton.mp hNew]

theorem Every.modify {change : Inode → Inode} (hEvery : d.Every P)
    (hChange : ∀ inode, d.inodes[handle]? = some inode → P (change inode).bytes) :
    (d.modifyInode handle change).Every P := by
  intro inode hMem
  rcases getElem?_of_mem hMem with ⟨other, hOther⟩
  rw [modifyInode, getElem?_modify] at hOther
  rcases map_eq_some_iff.mp hOther with ⟨before, hBefore, rfl⟩
  by_cases hSame : handle = other
  · subst hSame
    rw [if_pos rfl]
    exact hChange before hBefore
  · rw [if_neg hSame]
    exact hEvery before (mem_of_getElem? hBefore)

theorem Every.flush (hEvery : d.Every P) (handle : Nat) : (d.flush handle).Every P :=
  hEvery.modify fun inode hInode => hEvery inode (mem_of_getElem? hInode)

--------
-- Names
--------

variable [DecidableEq ν] {e : Directory ν} {name : ν} {start : Nat} {bytes : List UInt8}

/- The inode a name stands for. -/
def find (d : Directory ν) (name : ν) : Option Nat :=
  d.entries.lookup name

/- The bytes of the file of a name. -/
def contents (d : Directory ν) (name : ν) : Option (List UInt8) := do
  let handle ← d.find name
  let inode ← d.inodes[handle]?
  return inode.bytes

theorem mem_entries_of_find (hFind : d.find name = some handle) : (name, handle) ∈ d.entries := by
  rcases lookup_eq_some_iff.mp hFind with ⟨front, back, hEntries, _⟩
  rw [hEntries]
  exact mem_append_right front mem_cons_self

/- A name stands for a file there is. -/
theorem exists_inode (hFind : d.find name = some handle) :
    ∃ inode, d.inodes[handle]? = some inode :=
  ⟨_, getElem?_eq_getElem (d.named _ (mem_entries_of_find hFind))⟩

theorem contents_eq_some {inode : Inode} (hFind : d.find name = some handle)
    (hInode : d.inodes[handle]? = some inode) : d.contents name = some inode.bytes := by
  simp [contents, hFind, hInode]

theorem mem_inodes_of_contents (hContents : d.contents name = some bytes) :
    ∃ inode ∈ d.inodes, inode.bytes = bytes := by
  simp only [contents, bind_eq_bind, bind_eq_some_iff, Option.pure_def,
    Option.some.injEq] at hContents
  rcases hContents with ⟨handle, _, inode, hInode, hBytes⟩
  exact ⟨inode, mem_of_getElem? hInode, hBytes⟩

theorem named_rename (d : Directory ν) (source target : ν) :
    ∀ entry ∈ ((d.find source).toList.map fun handle => (target, handle)) ++
        d.entries.filter fun entry => entry.1 ≠ source ∧ entry.1 ≠ target,
      entry.2 < d.inodes.length := by
  intro entry hEntry
  rcases mem_append.mp hEntry with hMoved | hKept
  · rcases mem_map.mp hMoved with ⟨handle, hHandle, rfl⟩
    rw [mem_toList] at hHandle
    rcases d.exists_inode hHandle with ⟨_, hInode⟩
    exact (List.getElem?_eq_some_iff.mp hInode).1
  · exact d.named entry (mem_of_mem_filter hKept)

/- Put the file of one name under another. -/
def rename (d : Directory ν) (source target : ν) : Directory ν where
  inodes := d.inodes
  entries :=
    ((d.find source).toList.map fun handle => (target, handle)) ++
      d.entries.filter fun entry =>
        entry.1 ≠ source ∧ entry.1 ≠ target
  durable := d.durable
  named := d.named_rename source target

theorem find_make (d : Directory ν) (name other : ν) :
    (d.make name).find other = if other = name then some d.inodes.length else d.find other := by
  simp only [find, make, lookup_cons]
  by_cases hName : other = name
  · simp [hName]
  · rw [beq_false_of_ne hName, if_neg hName]

@[simp] theorem find_extend (d : Directory ν) (handle : Nat) (bytes : List UInt8) (name : ν) :
    (d.extend handle bytes).find name = d.find name := rfl

@[simp] theorem find_flush (d : Directory ν) (handle : Nat) (name : ν) :
    (d.flush handle).find name = d.find name := rfl

@[simp] theorem find_flushEntries (d : Directory ν) (name : ν) :
    d.flushEntries.find name = d.find name := rfl

/- A file is open, and these are its bytes. -/
structure Opens (d : Directory ν) (name : ν) (handle : Nat) (file : List UInt8) : Prop where
  find : d.find name = some handle
  contents : d.contents name = some file

theorem Opens.extend {file : List UInt8} (hOpens : d.Opens name handle file) (bytes : List UInt8) :
    (d.extend handle bytes).Opens name handle (file ++ bytes) := by
  rcases hOpens with ⟨hFind, hContents⟩
  rcases exists_inode hFind with ⟨inode, hInode⟩
  rw [contents_eq_some hFind hInode] at hContents
  cases hContents
  have hLater := d.getElem?_extend handle bytes
  rw [hInode] at hLater
  exact ⟨hFind, contents_eq_some (d := d.extend handle bytes) hFind hLater⟩

theorem Opens.flush {file : List UInt8} (hOpens : d.Opens name handle file) (other : Nat) :
    (d.flush other).Opens name handle file := by
  refine ⟨hOpens.find, Eq.trans ?_ hOpens.contents⟩
  unfold Directory.contents
  rw [find_flush, hOpens.find]
  simp only [Directory.flush, modifyInode, getElem?_modify]
  by_cases hSame : other = handle
  · cases hInode : d.inodes[handle]? <;> simp [hSame, hInode]
  · simp [hSame]

--------
-- Growth
--------

/-
  Nothing is renamed or overwritten: names keep their files, files keep their bytes, and what is
  durable stays durable.
-/
structure Grows (d e : Directory ν) : Prop where
  find : ∀ name handle, d.find name = some handle → e.find name = some handle
  durable : ∀ name handle, d.find name = some handle →
      d.durable.lookup name = some handle →
      e.durable.lookup name = some handle
  inode : ∀ (handle : Nat) inode, d.inodes[handle]? = some inode →
      ∃ later, e.inodes[handle]? = some later ∧
        inode.bytes <+: later.bytes ∧
        inode.bytes.take inode.synced <+: later.bytes.take later.synced

theorem Grows.refl (d : Directory ν) : d.Grows d where
  find := fun _ _ => id
  durable := fun _ _ _ => id
  inode := fun _ inode hInode =>
    ⟨inode, hInode, prefix_rfl, prefix_rfl⟩

theorem Grows.trans {c : Directory ν} (hFst : c.Grows d) (hNext : d.Grows e) : c.Grows e where
  find := fun name handle hFind =>
    hNext.find name handle (hFst.find name handle hFind)
  durable := fun name handle hFind hDurable =>
    hNext.durable name handle (hFst.find name handle hFind)
      (hFst.durable name handle hFind hDurable)
  inode := by
    intro handle inode hInode
    rcases hFst.inode handle inode hInode with ⟨between, hBetween, hBytes, hSynced⟩
    rcases hNext.inode handle between hBetween with ⟨later, hLater, hMore, hMoreSynced⟩
    exact ⟨later, hLater, hBytes.trans hMore, hSynced.trans hMoreSynced⟩

/- A change to one inode that only adds to it. -/
theorem grows_modify {change : Inode → Inode}
    (hChange : ∀ inode, inode.bytes <+: (change inode).bytes ∧
        inode.bytes.take inode.synced <+: (change inode).bytes.take (change inode).synced) :
    d.Grows (d.modifyInode handle change) where
  find := fun _ _ => id
  durable := fun _ _ _ => id
  inode := by
    intro other inode hInode
    by_cases hSame : handle = other
    · subst hSame
      refine ⟨change inode, ?_, hChange inode⟩
      simp [modifyInode, hInode]
    · refine ⟨inode, ?_, prefix_rfl, prefix_rfl⟩
      simp [modifyInode, hSame, hInode]

theorem grows_extend (d : Directory ν) (handle : Nat) (bytes : List UInt8) :
    d.Grows (d.extend handle bytes) := by
  refine grows_modify ?_
  intro inode
  refine ⟨prefix_append _ _, ?_⟩
  exact (prefix_append _ _).take inode.synced

theorem grows_flush (d : Directory ν) (handle : Nat) : d.Grows (d.flush handle) := by
  refine grows_modify ?_
  intro inode
  refine ⟨prefix_rfl, ?_⟩
  show inode.bytes.take inode.synced <+: inode.bytes.take inode.bytes.length
  rw [take_length]
  exact take_prefix _ _

theorem grows_make (hFree : d.find name = none) : d.Grows (d.make name) where
  find := by
    intro other handle hFind
    rw [find_make]
    by_cases hSame : other = name
    · rw [hSame, hFree] at hFind
      exact absurd hFind (by simp)
    · rwa [if_neg hSame]
  durable := fun _ _ _ => id
  inode := by
    intro handle inode hInode
    refine ⟨inode, ?_, prefix_rfl, prefix_rfl⟩
    have hLt := (List.getElem?_eq_some_iff.mp hInode).1
    rwa [make, getElem?_append_left hLt]

theorem grows_flushEntries (d : Directory ν) : d.Grows d.flushEntries where
  find := fun _ _ => id
  durable := fun _ _ hFind _ => hFind
  inode := fun _ inode hInode =>
    ⟨inode, hInode, prefix_rfl, prefix_rfl⟩

--------
-- Crashes
--------

/-
  What a crash may leave: each name stands for what it stood for, or for what it did at the
  directory's last sync, each file keeps at least the bytes its last sync covered, and there are no
  other files.
-/
structure Survives (d e : Directory ν) : Prop where
  find : ∀ name, e.find name = d.find name ∨ e.find name = d.durable.lookup name
  durable : e.durable = d.durable
  inode : ∀ (handle : Nat) inode, d.inodes[handle]? = some inode →
      ∃ kept, inode.synced ≤ kept ∧ e.inodes[handle]? = some ⟨inode.bytes.take kept, inode.synced⟩
  length : e.inodes.length = d.inodes.length

/- Nothing need be lost. -/
theorem Survives.refl (d : Directory ν) : d.Survives d where
  find := fun _ => .inl rfl
  durable := rfl
  inode := by
    intro handle inode hInode
    refine ⟨max inode.synced inode.bytes.length, Nat.le_max_left _ _, ?_⟩
    rwa [take_of_length_le (Nat.le_max_right _ _)]
  length := rfl

theorem Every.survives (hEvery : d.Every P) (hSurvives : d.Survives e)
    (hCut : ∀ bytes kept, P bytes → P (bytes.take kept)) : e.Every P := by
  intro inode hMem
  rcases getElem?_of_mem hMem with ⟨handle, hInode⟩
  have hLt := (List.getElem?_eq_some_iff.mp hInode).1
  rw [hSurvives.length] at hLt
  have hBefore := getElem?_eq_getElem hLt
  rcases hSurvives.inode handle _ hBefore with ⟨kept, _, hAfter⟩
  rw [hInode] at hAfter
  cases hAfter
  exact hCut _ kept (hEvery _ (mem_of_getElem? hBefore))

/- Some bytes are in a file. -/
structure Written (d : Directory ν) (name : ν) (start : Nat)
    (bytes : List UInt8) : Prop where
  intro ::
  exists_inode : ∃ handle inode, d.find name = some handle ∧
      d.inodes[handle]? = some inode ∧
      bytes <+: inode.bytes.drop start

/- And the file's last sync covered them. -/
structure Synced (d : Directory ν) (name : ν) (start : Nat)
    (bytes : List UInt8) : Prop where
  intro ::
  exists_inode : ∃ handle inode, d.find name = some handle ∧
      d.inodes[handle]? = some inode ∧
      bytes <+: (inode.bytes.take inode.synced).drop start

/- A sync of the file covers all that is in it. -/
theorem Written.flush (hWritten : d.Written name start bytes) (hFind : d.find name = some handle) :
    (d.flush handle).Synced name start bytes := by
  rcases hWritten with ⟨other, inode, hOther, hInode, hBytes⟩
  rw [hFind] at hOther
  cases hOther
  refine ⟨handle, { inode with synced := inode.bytes.length }, hFind, ?_, ?_⟩
  · simp [Directory.flush, modifyInode, hInode]
  · rwa [take_length]

theorem Synced.grows (hSynced : d.Synced name start bytes) (hGrows : d.Grows e) :
    e.Synced name start bytes := by
  rcases hSynced with ⟨handle, inode, hFind, hInode, hBytes⟩
  rcases hGrows.inode handle inode hInode with ⟨later, hLater, _, hKept⟩
  exact ⟨handle, later, hGrows.find name handle hFind, hLater, hBytes.trans (hKept.drop start)⟩

/- Some bytes of a file that no crash takes away: the name and the bytes are both durable. -/
structure Anchored (d : Directory ν) (name : ν) (start : Nat)
    (bytes : List UInt8) : Prop where
  intro ::
  exists_inode : ∃ handle inode, d.find name = some handle ∧
      d.durable.lookup name = some handle ∧
      d.inodes[handle]? = some inode ∧
      bytes <+: (inode.bytes.take inode.synced).drop start

theorem Anchored.synced (hAnchored : d.Anchored name start bytes) : d.Synced name start bytes := by
  rcases hAnchored with ⟨handle, inode, hFind, _, hInode, hBytes⟩
  exact ⟨handle, inode, hFind, hInode, hBytes⟩

theorem Anchored.written (hAnchored : d.Anchored name start bytes) :
    d.Written name start bytes := by
  rcases hAnchored with ⟨handle, inode, hFind, _, hInode, hBytes⟩
  exact ⟨handle, inode, hFind, hInode, hBytes.trans ((List.take_prefix _ _).drop start)⟩

/- A crash leaves the name what it stands for. -/
def NameDurable (d : Directory ν) (name : ν) : Prop :=
  d.durable.lookup name = d.find name

instance
    (d : Directory ν) (name : ν) :
    Decidable (d.NameDurable name) :=
  inferInstanceAs (Decidable (_ = _))

/- Durable bytes under a durable name. -/
theorem Synced.anchored (hSynced : d.Synced name start bytes) (hName : d.NameDurable name) :
    d.Anchored name start bytes := by
  rcases hSynced with ⟨handle, inode, hFind, hInode, hBytes⟩
  exact ⟨handle, inode, hFind, hName.trans hFind, hInode, hBytes⟩

theorem Anchored.grows (hAnchored : d.Anchored name start bytes) (hGrows : d.Grows e) :
    e.Anchored name start bytes := by
  rcases hAnchored with ⟨handle, inode, hFind, hDurable, hInode, hBytes⟩
  rcases hGrows.inode handle inode hInode with ⟨later, hLater, _, hSynced⟩
  exact ⟨handle, later, hGrows.find name handle hFind,
    hGrows.durable name handle hFind hDurable, hLater, hBytes.trans (hSynced.drop start)⟩

theorem Anchored.survives (hAnchored : d.Anchored name start bytes) (hSurvives : d.Survives e) :
    e.Anchored name start bytes := by
  rcases hAnchored with ⟨handle, inode, hFind, hDurable, hInode, hBytes⟩
  rcases hSurvives.inode handle inode hInode with ⟨kept, hKept, hLater⟩
  refine ⟨handle, _, ?_, ?_, hLater, ?_⟩
  · rcases hSurvives.find name with hSame | hSame
    · rw [hSame, hFind]
    · rw [hSame, hDurable]
  · rw [hSurvives.durable, hDurable]
  · rwa [take_take, Nat.min_eq_left hKept]

end Directory

--------
-- Devices
--------

/- How one call goes. -/
inductive CallFate where
  | completes
  -- an error, after so many bytes of a write
  | fails (kept : Nat)
  -- the end of the process, after as many
  | crashes (kept : Nat)
  deriving DecidableEq

/- A directory and how the next calls to it go; past the list they complete. -/
structure Device (ν : Type) where
  directory : Directory ν
  fates : List CallFate

/- The errors of the calls themselves. -/
inductive SystemError where
  | deviceError
  | alreadyExists
  | notFound
  deriving DecidableEq

/- Why a program on a device stopped. -/
inductive Stop (ε : Type) where
  | system (e : SystemError)
  | own (e : ε)
  | crashed
  deriving DecidableEq

namespace Device

variable {ν ε α : Type} {s t : Device ν} {handle : Nat}
variable {whole : Directory ν → Result (Stop ε) α × Directory ν} {u : Unit}

variable {out : Result (Stop ε) Unit} {I : Directory ν → Prop} {P : List UInt8 → Prop}
variable {bytes : List UInt8}

/- One system call: what it does when it completes, and what is left of it when it does not. -/
def call (halfway : Nat → Directory ν → Directory ν)
    (whole : Directory ν → Result (Stop ε) α × Directory ν) : Program (Device ν) (Stop ε) α :=
  fun device =>
    let rest := device.fates.tail
    match device.fates.head? with
    | none | some .completes =>
      let (out, directory) := whole device.directory
      (out, ⟨directory, rest⟩)
    | some (.fails kept) =>
      (Result.fail (.system .deviceError), ⟨halfway kept device.directory, rest⟩)
    | some (.crashes kept) =>
      (Result.fail .crashed, ⟨halfway kept device.directory, rest⟩)

/- A call that does nothing unless it completes. -/
def callAtomic (whole : Directory ν → Result (Stop ε) α × Directory ν) :
    Program (Device ν) (Stop ε) α :=
  call (fun _ directory => directory) whole

/- `File::write_all`, on a file opened for appending. -/
def writeAll (handle : Nat) (bytes : List UInt8) : Program (Device ν) (Stop ε) Unit :=
  call (fun kept d => d.extend handle (bytes.take kept)) (fun d => (.ok (), d.extend handle bytes))

/- `File::sync_all`. -/
def syncAll (handle : Nat) : Program (Device ν) (Stop ε) Unit :=
  callAtomic fun d => (.ok (), d.flush handle)

/- `sync_all` on the directory itself. -/
def syncDirectory : Program (Device ν) (Stop ε) Unit :=
  callAtomic fun d => (.ok (), d.flushEntries)

/- The length `File::metadata` gives. -/
def length (handle : Nat) : Program (Device ν) (Stop ε) Nat :=
  callAtomic fun d =>
    (.ok ((d.inodes[handle]?.map (·.bytes.length)).getD 0), d)

section

variable [DecidableEq ν]

/- Open for appending a file that must not exist yet. -/
def createNew (name : ν) : Program (Device ν) (Stop ε) Nat :=
  callAtomic fun d =>
    match d.find name with
    | some _ => (Result.fail (.system .alreadyExists), d)
    | none => (.ok d.inodes.length, d.make name)

/- Open for appending a file that is made if need be. -/
def openAppend (name : ν) : Program (Device ν) (Stop ε) Nat :=
  callAtomic fun d =>
    match d.find name with
    | some handle => (.ok handle, d)
    | none => (.ok d.inodes.length, d.make name)

/- Open for appending a file that must exist. -/
def openExisting (name : ν) : Program (Device ν) (Stop ε) Nat :=
  callAtomic fun d =>
    match d.find name with
    | some handle => (.ok handle, d)
    | none => (Result.fail (.system .notFound), d)

/- `File::create`: an empty file, whatever was there. -/
def create (name : ν) : Program (Device ν) (Stop ε) Nat :=
  callAtomic fun d =>
    match d.find name with
    | some handle => (.ok handle, d.truncate handle)
    | none => (.ok d.inodes.length, d.make name)

/- `fs::rename`. -/
def renameFile (source target : ν) : Program (Device ν) (Stop ε) Unit :=
  callAtomic fun d =>
    match d.find source with
    | some _ => (.ok (), d.rename source target)
    | none => (Result.fail (.system .notFound), d)

end

--------
-- What the Calls Do
--------

/- A call that returned did all of its work. -/
theorem directory_of_call_eq_ok {halfway : Nat → Directory ν → Directory ν} {a : α}
    (hCall : call halfway whole s = (.ok a, t)) : whole s.directory = (.ok a, t.directory) := by
  unfold call at hCall
  generalize whole s.directory = out at hCall ⊢
  rcases out with ⟨result, directory⟩
  split at hCall <;> cases hCall <;> rfl

theorem directory_of_callAtomic_eq_ok {a : α} (hCall : callAtomic whole s = (.ok a, t)) :
    whole s.directory = (.ok a, t.directory) :=
  directory_of_call_eq_ok hCall

theorem fates_of_callAtomic {out : Result (Stop ε) α} (hCall : callAtomic whole s = (out, t)) :
    t.fates = s.fates.tail := by
  unfold callAtomic call at hCall
  split at hCall <;> cases hCall <;> rfl

theorem ends_call {halfway : Nat → Directory ν → Directory ν} {Q : α → Device ν → Prop}
    (hHalfway : ∀ kept, I (halfway kept s.directory)) (hWhole : I (whole s.directory).2)
    (hDone : ∀ a t, whole s.directory = (.ok a, t.directory) → I t.directory → Q a t) :
    (call halfway whole).Ends Q (fun t => I t.directory) s where
  returns := by
    intro a t hCall
    have hSame := directory_of_call_eq_ok hCall
    rw [hSame] at hWhole
    exact hDone a t hSame hWhole
  stops := by
    intro h t hCall
    unfold call at hCall
    generalize whole s.directory = out at hCall hWhole
    rcases out with ⟨result, directory⟩
    split at hCall
    · cases hCall
      exact hWhole
    · cases hCall
      exact hWhole
    · cases hCall
      exact hHalfway _
    · cases hCall
      exact hHalfway _

theorem ends_callAtomic {Q : α → Device ν → Prop} (hNow : I s.directory)
    (hWhole : I (whole s.directory).2)
    (hDone : ∀ a t, whole s.directory = (.ok a, t.directory) → I t.directory → Q a t) :
    (callAtomic whole).Ends Q (fun t => I t.directory) s :=
  ends_call (fun _ => hNow) hWhole hDone

theorem ends_writeAll {Q : Unit → Device ν → Prop} (hEvery : s.directory.Every P)
    (hBytes : ∀ inode, s.directory.inodes[handle]? = some inode →
      ∀ kept, P (inode.bytes ++ bytes.take kept))
    (hDone : ∀ t, t.directory = s.directory.extend handle bytes → t.directory.Every P → Q () t) :
    (writeAll handle bytes : Program _ (Stop ε) _).Ends Q (fun t => t.directory.Every P) s := by
  refine ends_call (fun kept => hEvery.modify fun inode hInode => hBytes inode hInode kept)
    (hEvery.modify fun inode hInode => ?_) fun _ t hWhole => hDone t (Prod.mk.inj hWhole).2.symm
  have hAll := hBytes inode hInode bytes.length
  rwa [take_length] at hAll

theorem directory_of_writeAll_eq_ok
    (hCall : (writeAll handle bytes : Program _ (Stop ε) _) s = (.ok u, t)) :
    t.directory = s.directory.extend handle bytes := by
  have hWhole := directory_of_call_eq_ok hCall
  exact (Prod.mk.inj hWhole).2.symm

/- Past the list of fates all the bytes are written. -/
theorem writeAll_calm (d : Directory ν) (handle : Nat) (bytes : List UInt8) :
    (writeAll handle bytes : Program _ (Stop ε) _) ⟨d, []⟩ =
      (.ok (), ⟨d.extend handle bytes, []⟩) := rfl

theorem directory_of_syncAll_eq_ok
    (hCall : (syncAll handle : Program _ (Stop ε) _) s = (.ok u, t)) :
    t.directory = s.directory.flush handle := by
  have hWhole := directory_of_callAtomic_eq_ok hCall
  exact (Prod.mk.inj hWhole).2.symm

theorem directory_of_syncDirectory_eq_ok
    (hCall : (syncDirectory : Program _ (Stop ε) _) s = (.ok u, t)) :
    t.directory = s.directory.flushEntries := by
  have hWhole := directory_of_callAtomic_eq_ok hCall
  exact (Prod.mk.inj hWhole).2.symm

theorem length_calm {d : Directory ν} {size : Nat}
    (hSize : d.inodes[handle]?.map (·.bytes.length) = some size) :
    (length handle : Program _ (Stop ε) _) ⟨d, []⟩ = (.ok size, ⟨d, []⟩) := by
  simp [length, callAtomic, call, hSize]

theorem of_length_eq_ok {size : Nat}
    (hCall : (length handle : Program _ (Stop ε) _) s = (.ok size, t)) :
    t.directory = s.directory ∧
      size = (s.directory.inodes[handle]?.map (·.bytes.length)).getD 0 := by
  have hWhole := directory_of_callAtomic_eq_ok hCall
  rw [Prod.mk.injEq, ok.injEq] at hWhole
  exact ⟨hWhole.2.symm, hWhole.1.symm⟩

section

variable [DecidableEq ν] {name : ν} {handle : Nat} {s t : Device ν}
variable {whole : Directory ν → Result (Stop ε) α × Directory ν}

theorem of_createNew_eq_ok (hCall : (createNew name : Program _ (Stop ε) _) s = (.ok handle, t)) :
    s.directory.find name = none ∧ handle = s.directory.inodes.length ∧
      t.directory = s.directory.make name := by
  have hWhole := directory_of_callAtomic_eq_ok hCall
  cases hFind : s.directory.find name with
  | some other =>
    rw [hFind] at hWhole
    cases (Prod.mk.inj hWhole).1
  | none =>
    rw [hFind] at hWhole
    rw [Prod.mk.injEq, ok.injEq] at hWhole
    exact ⟨rfl, hWhole.1.symm, hWhole.2.symm⟩

/- Past the list of fates a new name can be made. -/
theorem createNew_calm {d : Directory ν} (hFree : d.find name = none) :
    (createNew name : Program _ (Stop ε) _) ⟨d, []⟩ = (.ok d.inodes.length, ⟨d.make name, []⟩) := by
  simp [createNew, callAtomic, call, hFree]

/- And a name that is there can be opened. -/
theorem openAppend_calm {d : Directory ν} (hFind : d.find name = some handle) :
    (openAppend name : Program _ (Stop ε) _) ⟨d, []⟩ = (.ok handle, ⟨d, []⟩) := by
  simp [openAppend, callAtomic, call, hFind]

/- An opened file is there under its name. -/
theorem of_openAppend_eq_ok (hCall : (openAppend name : Program _ (Stop ε) _) s = (.ok handle, t)) :
    t.directory.find name = some handle := by
  have hWhole := directory_of_callAtomic_eq_ok hCall
  cases hFind : s.directory.find name with
  | some other =>
    rw [hFind, Prod.mk.injEq, ok.injEq] at hWhole
    rw [← hWhole.1, ← hWhole.2, hFind]
  | none =>
    rw [hFind, Prod.mk.injEq, ok.injEq] at hWhole
    rw [← hWhole.1, ← hWhole.2, Directory.find_make, if_pos rfl]

/- Only a file that was not there is made. -/
theorem directory_of_openAppend_eq_ok
    (hCall : (openAppend name : Program _ (Stop ε) _) s = (.ok handle, t)) :
    t.directory = s.directory ∨
      s.directory.find name = none ∧ t.directory = s.directory.make name := by
  have hWhole := directory_of_callAtomic_eq_ok hCall
  cases hFind : s.directory.find name with
  | some other =>
    rw [hFind] at hWhole
    exact .inl (Prod.mk.inj hWhole).2.symm
  | none =>
    rw [hFind] at hWhole
    exact .inr ⟨rfl, (Prod.mk.inj hWhole).2.symm⟩

theorem of_openExisting_eq_ok
    (hCall : (openExisting name : Program _ (Stop ε) _) s = (.ok handle, t)) :
    s.directory.find name = some handle ∧ t.directory = s.directory := by
  have hWhole := directory_of_callAtomic_eq_ok hCall
  cases hFind : s.directory.find name with
  | some other =>
    rw [hFind, Prod.mk.injEq, ok.injEq] at hWhole
    exact ⟨congrArg some hWhole.1, hWhole.2.symm⟩
  | none =>
    rw [hFind] at hWhole
    cases (Prod.mk.inj hWhole).1

/- A created file is there under its name, and empty. -/
theorem of_create_eq_ok (hCall : (create name : Program _ (Stop ε) _) s = (.ok handle, t)) :
    t.directory.find name = some handle ∧ t.directory.inodes[handle]? = some ⟨[], 0⟩ := by
  have hWhole := directory_of_callAtomic_eq_ok hCall
  cases hFind : s.directory.find name with
  | some other =>
    rw [hFind, Prod.mk.injEq, ok.injEq] at hWhole
    rw [← hWhole.1, ← hWhole.2]
    rcases Directory.exists_inode hFind with ⟨_, hInode⟩
    refine ⟨hFind, ?_⟩
    simp [Directory.truncate, Directory.modifyInode, hInode]
  | none =>
    rw [hFind, Prod.mk.injEq, ok.injEq] at hWhole
    rw [← hWhole.1, ← hWhole.2, Directory.find_make, if_pos rfl]
    refine ⟨rfl, ?_⟩
    simp [Directory.make]

--------
-- What Calls Leave of Every File
--------

theorem ends_create {Q : Nat → Device ν → Prop} (hEvery : s.directory.Every P) (hNone : P [])
    (hDone : ∀ handle t, t.directory.inodes[handle]? = some ⟨[], 0⟩ →
      t.directory.Every P → Q handle t) :
    (create name : Program _ (Stop ε) _).Ends Q (fun t => t.directory.Every P) s := by
  have hEnds : (create name : Program _ (Stop ε) _).Ends
      (fun _ t => t.directory.Every P) (fun t => t.directory.Every P) s := by
    refine ends_callAtomic hEvery ?_ fun _ _ _ => id
    cases s.directory.find name with
    | some handle => exact hEvery.modify fun _ _ => hNone
    | none => exact hEvery.make hNone name
  refine ⟨fun handle t hCall => ?_, hEnds.stops⟩
  exact hDone handle t (of_create_eq_ok hCall).2 (hEnds.returns handle t hCall)

theorem ends_openExisting {Q : Nat → Device ν → Prop} (hEvery : s.directory.Every P)
    (hDone : ∀ handle t, t.directory.find name = some handle → t.directory.Every P → Q handle t) :
    (openExisting name : Program _ (Stop ε) _).Ends Q (fun t => t.directory.Every P) s where
  returns := by
    intro handle t hCall
    rcases of_openExisting_eq_ok hCall with ⟨hFind, hSame⟩
    rw [← hSame] at hFind hEvery
    exact hDone handle t hFind hEvery
  stops := by
    refine (ends_callAtomic (Q := fun _ _ => True) hEvery ?_ fun _ _ _ _ => trivial).stops
    cases s.directory.find name <;> exact hEvery

/- The directory of a device only grows. -/
def Grows (s t : Device ν) : Prop :=
  s.directory.Grows t.directory

theorem Grows.refl (s : Device ν) : s.Grows s :=
  Directory.Grows.refl s.directory

theorem Grows.trans (s t u : Device ν) (hFst : s.Grows t) (hNext : t.Grows u) : s.Grows u :=
  Directory.Grows.trans hFst hNext

theorem keeps_call {halfway : Nat → Directory ν → Directory ν}
    (hHalfway : ∀ kept d, Directory.Grows d (halfway kept d))
    (hWhole : ∀ d, Directory.Grows d (whole d).2) : (call halfway whole).Keeps Grows := by
  intro s
  unfold call
  split
  · exact hWhole s.directory
  · exact hWhole s.directory
  · exact hHalfway _ s.directory
  · exact hHalfway _ s.directory

theorem keeps_callAtomic (hWhole : ∀ d, Directory.Grows d (whole d).2) :
    (callAtomic whole).Keeps Grows :=
  keeps_call (fun _ d => Directory.Grows.refl d) hWhole

theorem keeps_writeAll (handle : Nat) (bytes : List UInt8) :
    (writeAll handle bytes : Program (Device ν) (Stop ε) Unit).Keeps Grows :=
  keeps_call (fun _ d => d.grows_extend handle _) (fun d => d.grows_extend handle bytes)

theorem keeps_syncAll (handle : Nat) :
    (syncAll handle : Program (Device ν) (Stop ε) Unit).Keeps Grows :=
  keeps_callAtomic fun d => d.grows_flush handle

theorem keeps_syncDirectory : (syncDirectory : Program (Device ν) (Stop ε) Unit).Keeps Grows :=
  keeps_callAtomic Directory.grows_flushEntries

theorem keeps_length (handle : Nat) :
    (length handle : Program (Device ν) (Stop ε) Nat).Keeps Grows :=
  keeps_callAtomic Directory.Grows.refl

theorem keeps_createNew (name : ν) :
    (createNew name : Program (Device ν) (Stop ε) Nat).Keeps Grows := by
  refine keeps_callAtomic ?_
  intro d
  cases hFind : d.find name with
  | some handle => exact Directory.Grows.refl d
  | none => exact Directory.grows_make hFind

theorem keeps_openAppend (name : ν) :
    (openAppend name : Program (Device ν) (Stop ε) Nat).Keeps Grows := by
  refine keeps_callAtomic ?_
  intro d
  cases hFind : d.find name with
  | some handle => exact Directory.Grows.refl d
  | none => exact Directory.grows_make hFind

end

end Device
