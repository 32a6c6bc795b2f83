import Dbtrail.Rotation.Perform

/-!
# Rotation drops what is archived

The rows of a partition only grow, so an archive of it is a first part of them, and one
with as many rows as the partition is all of them. That is what a cycle's last count
establishes about its staged file. It says nothing about the copy that stays when the
staged file is pruned, nor about what a cycle without archiving drops, nor about a file
whose footer survived damage or a partition that carries the name of an earlier one:
`Sound` names these four places, and over schedules that are sound there every row a
partition held at its last check is in a copy that outlives the cycle.
-/

namespace Dbtrail.Rotation

open List

variable {Data : Type} {f : ArchiveFile Data} {hour n : ℕ} {w : World Data}

/-! ## Copies -/

/-- The copies of a partition: staged files and uploaded objects. -/
def copies (w : World Data) (hour : ℕ) : List (ArchiveFile Data) :=
  (w.files.entries.filter fun entry => decide (entry.1.hour = hour)).map (fun entry => entry.2) ++
    (w.objects.entries.filter fun entry => decide (entry.1.hour = hour)).map fun entry => entry.2

/-- Every row is in a copy that can be read. -/
def Archived (w : World Data) (hour : ℕ) (rows : List (IndexedRow Data)) : Prop :=
  ∃ f ∈ copies w hour, f.footer = some f.rows.length ∧ rows ⊆ f.rows

instance [DecidableEq Data] (w : World Data) (hour : ℕ) (rows : List (IndexedRow Data)) :
    Decidable (Archived w hour rows) :=
  inferInstanceAs (Decidable (∃ f ∈ copies w hour, f.footer = some f.rows.length ∧ rows ⊆ f.rows))

theorem mem_copies :
    f ∈ copies w hour ↔
      (∃ path, w.files.lookup path = some f ∧ path.hour = hour) ∨
        ∃ key, w.objects.lookup key = some f ∧ key.hour = hour := by
  have inFiles : ∀ path, w.files.lookup path = some f ↔ (⟨path, f⟩ : Sigma _) ∈ w.files.entries :=
    fun _ => AList.mem_lookup_iff
  have inObjects : ∀ key, w.objects.lookup key = some f ↔
      (⟨key, f⟩ : Sigma _) ∈ w.objects.entries := fun _ => AList.mem_lookup_iff
  simp only [copies, mem_append, mem_map, mem_filter, decide_eq_true_eq,
    Sigma.exists, inFiles, inObjects, exists_eq_right]

theorem Archived.mono {w' : World Data} {rows : List (IndexedRow Data)}
    (archived : Archived w hour rows) (kept : copies w hour ⊆ copies w' hour) :
    Archived w' hour rows := by
  obtain ⟨f, member, readable, holds⟩ := archived
  exact ⟨f, kept member, readable, holds⟩

section Frame

variable {w : World Data} {hour : ℕ} {path : ArchivePath}

/-- What is written under one hour is no copy of another. -/
theorem copies_otherFile {files : AList fun _ : ArchivePath => ArchiveFile Data}
    (frame : ∀ path' ≠ path, files.lookup path' = w.files.lookup path') (other : hour ≠ path.hour) :
    copies w hour ⊆ copies { w with files := files } hour := by
  intro g member
  rw [mem_copies] at member ⊢
  refine member.imp_left ?_
  rintro ⟨path', found, rfl⟩
  have ne : path' ≠ path := fun same => other (congrArg ArchivePath.hour same)
  exact ⟨path', (frame path' ne).trans found, rfl⟩

theorem copies_writeFile (f : ArchiveFile Data) (other : hour ≠ path.hour) :
    copies w hour ⊆ copies (w.writeFile path f) hour :=
  copies_otherFile (fun _ ne => AList.lookup_insert_ne ne) other

theorem copies_removeFile (other : hour ≠ path.hour) :
    copies w hour ⊆ copies (w.removeFile path) hour :=
  copies_otherFile (fun _ ne => AList.lookup_erase_ne ne) other

theorem copies_putObject {key : S3Key} (f : ArchiveFile Data) (other : hour ≠ key.hour) :
    copies w hour ⊆ copies { w with objects := w.objects.insert key f } hour := by
  intro g member
  rw [mem_copies] at member ⊢
  refine member.imp_right ?_
  rintro ⟨key', found, rfl⟩
  refine ⟨key', ?_, rfl⟩
  have ne : key' ≠ key := fun same => other (congrArg S3Key.hour same)
  exact (AList.lookup_insert_ne ne).trans found

end Frame

/-! ## Archives are first parts -/

/-- A file that reports a count holds that many of the partition's first rows. -/
def Snapshot (w : World Data) (hour : ℕ) (f : ArchiveFile Data) : Prop :=
  .hourly hour ∈ w.partitions → ∀ n, f.footer = some n →
    f.rows.length = n ∧ f.rows <+: w.rows (.hourly hour)

structure Consistent (w : World Data) : Prop where
  nodup : w.partitions.Nodup
  file : ∀ path f, w.files.lookup path = some f → Snapshot w path.hour f
  object : ∀ key f, w.objects.lookup key = some f → Snapshot w key.hour f
  row : ∀ k r, w.archiveState.lookup k = some r →
    r.localPath.hour = k.1 ∧ ∀ key, r.s3 = some key → key.hour = k.1

theorem Consistent.copy (consistent : Consistent w) (member : f ∈ copies w hour) :
    Snapshot w hour f := by
  rcases mem_copies.mp member with ⟨path, found, rfl⟩ | ⟨key, found, rfl⟩
  · exact consistent.file path f found
  · exact consistent.object key f found

/-- A copy with as many rows as were seen holds the rows that were seen. -/
theorem Consistent.archived (consistent : Consistent w) {seen : List (IndexedRow Data)}
    (member : f ∈ copies w hour) (live : .hourly hour ∈ w.partitions)
    (footer : f.footer = some seen.length) (early : seen <+: w.rows (.hourly hour)) :
    f.footer = some f.rows.length ∧ seen ⊆ f.rows := by
  obtain ⟨length, part⟩ := consistent.copy member live _ footer
  have le : seen <+: f.rows := prefix_of_prefix_length_le early part length.ge
  exact ⟨by rw [footer, length], le.subset⟩

theorem validateArchiveFile_eq_some {path : ArchivePath} :
    w.validateArchiveFile path = some n ↔
      ∃ f, w.files.lookup path = some f ∧ f.footer = some n :=
  Option.bind_eq_some_iff

theorem validateObject_eq_some {key : S3Key} :
    w.validateObject key = some n ↔ ∃ f, w.objects.lookup key = some f ∧ f.footer = some n :=
  Option.bind_eq_some_iff

theorem archivedRowCount_recordArchive {bintrailID : String} {path : ArchivePath}
    {s3 : Option S3Key} :
    (w.recordArchive hour bintrailID path n s3).archivedRowCount hour bintrailID = some n := by
  unfold World.archivedRowCount World.recordArchive
  rw [AList.lookup_insert]
  cases w.archiveState.lookup (hour, bintrailID) <;> rfl

/-- The mark touches no count and no copy. -/
theorem markUploaded_eq {bintrailID : String} {key : S3Key} :
    ∃ rows, w.markUploaded hour bintrailID key = { w with archiveState := rows } ∧
      (w.markUploaded hour bintrailID key).archivedRowCount hour bintrailID =
        w.archivedRowCount hour bintrailID := by
  unfold World.markUploaded World.archivedRowCount
  cases found : w.archiveState.lookup (hour, bintrailID) with
  | none => exact ⟨_, rfl, by rw [found]⟩
  | some row => exact ⟨_, rfl, by rw [AList.lookup_insert]; rfl⟩

/-- Rows arrive, and nothing else changes. -/
structure Grows (w w' : World Data) : Prop where
  partitions : w'.partitions = w.partitions
  rows : ∀ name, w.rows name <+: w'.rows name
  files : w'.files = w.files
  objects : w'.objects = w.objects
  archiveState : w'.archiveState = w.archiveState

theorem grows_insertRow (w : World Data) (row : IndexedRow Data) : Grows w (w.insertRow row) := by
  unfold World.insertRow
  split
  · rename_i name _
    refine ⟨rfl, fun other => ?_, rfl, rfl, rfl⟩
    by_cases same : other = name
    · subst same
      simp
    · simp [Function.update_of_ne same]
  · exact ⟨rfl, fun _ => prefix_rfl, rfl, rfl, rfl⟩

section Grows

variable {w w' : World Data}

theorem Snapshot.grows {hour : ℕ} {f : ArchiveFile Data} (snap : Snapshot w hour f)
    (grows : Grows w w') : Snapshot w' hour f := by
  intro live n footer
  rw [grows.partitions] at live
  obtain ⟨length, part⟩ := snap live n footer
  exact ⟨length, part.trans (grows.rows _)⟩

theorem Consistent.grows (consistent : Consistent w) (grows : Grows w w') : Consistent w' where
  nodup := by rw [grows.partitions]; exact consistent.nodup
  file := by
    rw [grows.files]
    exact fun path f found => (consistent.file path f found).grows grows
  object := by
    rw [grows.objects]
    exact fun key f found => (consistent.object key f found).grows grows
  row := by rw [grows.archiveState]; exact consistent.row

theorem Grows.copies (grows : Grows w w') (hour : ℕ) : copies w' hour = copies w hour := by
  simp only [Rotation.copies, grows.files, grows.objects]

end Grows

/-! ## Statements keep the archives -/

section Entries

variable {κ ν : Type} [DecidableEq κ] {m : AList fun _ : κ => ν} {k k' : κ} {v v' : ν}

theorem lookup_insert_cases (found : (m.insert k v).lookup k' = some v') :
    k' = k ∧ v' = v ∨ m.lookup k' = some v' := by
  by_cases same : k' = k
  · rw [same, AList.lookup_insert] at found
    exact .inl ⟨same, (Option.some.inj found).symm⟩
  · rw [AList.lookup_insert_ne same] at found
    exact .inr found

theorem lookup_of_lookup_erase (found : (m.erase k).lookup k' = some v) :
    m.lookup k' = some v := by
  by_cases same : k' = k
  · rw [same, AList.lookup_erase] at found
    cases found
  · rwa [AList.lookup_erase_ne same] at found

end Entries

section Operations

variable {w : World Data} (consistent : Consistent w) {path : ArchivePath}

include consistent

theorem Consistent.writeFile {f : ArchiveFile Data} (snap : Snapshot w path.hour f) :
    Consistent (w.writeFile path f) :=
  { consistent with
    file := by
      intro path' g found
      rcases lookup_insert_cases found with ⟨rfl, rfl⟩ | found
      · exact snap
      · exact consistent.file path' g found }

theorem Consistent.removeFile (path : ArchivePath) : Consistent (w.removeFile path) :=
  { consistent with
    file := fun path' g found => consistent.file path' g (lookup_of_lookup_erase found) }

theorem Consistent.putObject {key : S3Key} {f : ArchiveFile Data}
    (snap : Snapshot w key.hour f) :
    Consistent { w with objects := w.objects.insert key f } :=
  { consistent with
    object := by
      intro key' g found
      rcases lookup_insert_cases found with ⟨rfl, rfl⟩ | found
      · exact snap
      · exact consistent.object key' g found }

theorem Consistent.putState {k : ℕ × String} {r : ArchiveState} (path : r.localPath.hour = k.1)
    (s3 : ∀ key, r.s3 = some key → key.hour = k.1) :
    Consistent { w with archiveState := w.archiveState.insert k r } :=
  { consistent with
    row := by
      intro k' r' found
      rcases lookup_insert_cases found with ⟨rfl, rfl⟩ | found
      · exact ⟨path, s3⟩
      · exact consistent.row k' r' found }

theorem Consistent.deleteArchiveState (hour : ℕ) (bintrailID : String) :
    Consistent (w.deleteArchiveState hour bintrailID) :=
  { consistent with
    row := fun k r found => consistent.row k r (lookup_of_lookup_erase found) }

theorem Consistent.archivePartition (hour : ℕ) (same : path.hour = hour) :
    Consistent (w.archivePartition hour path) := by
  subst same
  refine consistent.writeFile fun _ n footer => ?_
  have count : w.partitionRowCount path.hour = n := Option.some.inj footer
  exact ⟨count, prefix_rfl⟩

theorem Consistent.recordArchive {hour : ℕ} {bintrailID : String} {n : ℕ} {s3 : Option S3Key}
    (samePath : path.hour = hour) (sameKey : ∀ key, s3 = some key → key.hour = hour) :
    Consistent (w.recordArchive hour bintrailID path n s3) := by
  unfold World.recordArchive
  dsimp only
  cases found : w.archiveState.lookup (hour, bintrailID) with
  | none => exact consistent.putState samePath sameKey
  | some old =>
    refine consistent.putState samePath fun key chosen => ?_
    rcases Option.or_eq_some_iff.mp chosen with new | ⟨-, kept⟩
    · exact sameKey key new
    · exact (consistent.row _ old found).2 key kept

theorem Consistent.markUploaded {hour : ℕ} {bintrailID : String} {key : S3Key}
    (sameKey : key.hour = hour) : Consistent (w.markUploaded hour bintrailID key) := by
  unfold World.markUploaded
  cases found : w.archiveState.lookup (hour, bintrailID) with
  | none => exact consistent
  | some old =>
    refine consistent.putState (consistent.row _ old found).1 ?_
    rintro _ ⟨⟩
    exact sameKey

theorem Consistent.dropPartitions (hours : List ℕ) : Consistent (w.dropPartitions hours) where
  nodup := consistent.nodup.filter _
  file := fun path f found live => consistent.file path f found (List.mem_filter.mp live).1
  object := fun key f found live => consistent.object key f found (List.mem_filter.mp live).1
  row := consistent.row

end Operations

/-! ## New partitions -/

theorem lt_nextPartitionStart {named : List ℕ} (nowHour : ℕ) (member : hour ∈ named) :
    hour < nextPartitionStart named nowHour := by
  unfold nextPartitionStart
  cases latest : named.max? with
  | none => simp [max?_eq_none_iff.mp latest] at member
  | some _ => exact Nat.lt_succ_of_le ((max?_eq_some_iff.mp latest).2 hour member)

theorem mem_named : hour ∈ w.named ↔ .hourly hour ∈ w.partitions := by
  simp only [World.named, mem_filterMap]
  constructor
  · rintro ⟨name, member, date⟩
    cases name with
    | hourly _ =>
      cases date
      exact member
    | future => cases date
  · exact fun member => ⟨_, member, rfl⟩

theorem hourly_mem_addFuturePartitions {start : ℕ} :
    .hourly hour ∈ (w.addFuturePartitions start n).partitions ↔
      .hourly hour ∈ w.partitions ∨ start ≤ hour ∧ hour < start + n := by
  simp only [World.addFuturePartitions, mem_append, mem_filter, mem_map,
    mem_range, PartitionName.hourly.injEq, mem_singleton, reduceCtorEq, or_false,
    ne_eq, not_false_eq_true, decide_true, and_true]
  refine or_congr_right ⟨?_, fun ⟨ge, lt⟩ => ⟨hour - start, by omega, by omega⟩⟩
  rintro ⟨i, lt, rfl⟩
  omega

/-- Partitions under names no copy has. -/
theorem Consistent.addFuturePartitions (consistent : Consistent w) {start : ℕ}
    (beyond : ∀ hour ∈ w.named, hour < start)
    (unused : ∀ hour, start ≤ hour → hour < start + n → copies w hour = []) :
    Consistent (w.addFuturePartitions start n) := by
  have rows : ∀ hour f, f ∈ copies w hour → Snapshot (w.addFuturePartitions start n) hour f := by
    intro hour f member live
    rcases hourly_mem_addFuturePartitions.mp live with old | ⟨ge, lt⟩
    · have before := beyond hour (mem_named.mpr old)
      have same : (w.addFuturePartitions start n).rows (.hourly hour) = w.rows (.hourly hour) :=
        if_neg (by omega)
      rw [same]
      exact consistent.copy member old
    · rw [unused hour ge lt] at member
      cases member
  refine ⟨?_, ?_, ?_, consistent.row⟩
  · have hours : ((range n).map fun i => PartitionName.hourly (start + i)).Nodup := by
      refine nodup_range.map fun i j same => ?_
      simpa using same
    refine List.Nodup.append ((consistent.nodup.filter _).append hours ?_) (nodup_singleton _) ?_
    · intro name inOld inNew
      obtain ⟨i, -, rfl⟩ := mem_map.mp inNew
      have := beyond _ (mem_named.mpr (mem_filter.mp inOld).1)
      omega
    · intro name member last
      rw [mem_singleton.mp last] at member
      simp at member
  · exact fun path f found => rows path.hour f (mem_copies.mpr (.inl ⟨path, found, rfl⟩))
  · exact fun key f found => rows key.hour f (mem_copies.mpr (.inr ⟨key, found, rfl⟩))

/-! ## Where rotation relies on more than it checks -/

/-- The object the row of `archive_state` says was uploaded has the rows the row records. -/
def UploadCurrent (w : World Data) (hour : ℕ) (bintrailID : String) : Prop :=
  ∀ r ∈ w.archiveState.lookup (hour, bintrailID), r.s3UploadedAt = true →
    r.rowCount.isSome = true ∧ r.s3.bind w.validateObject = r.rowCount

/-- A copy the partition's rows of `archive_state` name has as many rows as the partition. -/
def CopyCurrent (w : World Data) (hour : ℕ) : Prop :=
  ∃ entry ∈ w.archiveState.entries, entry.1.1 = hour ∧
    (w.validateArchiveFile entry.2.localPath = some (w.partitionRowCount hour) ∨
      entry.2.s3.bind w.validateObject = some (w.partitionRowCount hour))

/-- What a step of a cycle relies on. -/
def SoundStep (w : World Data) (c : Cycle Data) : Prop :=
  match c.phase with
  | .archiving hour _ .upload =>
      c.opts.retry = true → c.opts.prunes = true → UploadCurrent w hour c.opts.bintrailID
  | .checking (hour :: _) _ protectActive =>
      safeToDrop w hour protectActive = true → CopyCurrent w hour
  | .adding _ => ∀ hour ∈ hoursToAdd w c, copies w hour = []
  | _ => True

/-- Damage shows in the footer, and steps of a cycle are sound. -/
def Sound (s : System Data) : Act Data → Prop
  | .corrupt _ file => file.footer = none
  | .step _ => ∀ c ∈ s.cycle, SoundStep s.world c
  | _ => True

instance (w : World Data) (hour : ℕ) (bintrailID : String) :
    Decidable (UploadCurrent w hour bintrailID) :=
  inferInstanceAs (Decidable (∀ r ∈ w.archiveState.lookup (hour, bintrailID),
    r.s3UploadedAt = true → r.rowCount.isSome = true ∧ r.s3.bind w.validateObject = r.rowCount))

instance (w : World Data) (hour : ℕ) : Decidable (CopyCurrent w hour) :=
  inferInstanceAs (Decidable (∃ entry ∈ w.archiveState.entries, entry.1.1 = hour ∧
    (w.validateArchiveFile entry.2.localPath = some (w.partitionRowCount hour) ∨
      entry.2.s3.bind w.validateObject = some (w.partitionRowCount hour))))

instance (w : World Data) (c : Cycle Data) : Decidable (SoundStep w c) := by
  unfold SoundStep
  split <;> infer_instance

instance (s : System Data) (a : Act Data) : Decidable (Sound s a) := by
  cases a <;> unfold Sound <;> infer_instance

/-! ## What a cycle knows at each stage -/

/-- Not dropped yet. -/
def Waiting (w : World Data) (c : Cycle Data) (hour : ℕ) : Prop :=
  .hourly hour ∈ w.partitions ∧ ∀ d ∈ c.dropped, d.1 ≠ hour

/-- The staged file has the rows `archive_state` records. -/
def Staged (w : World Data) (opts : Options) (hour n : ℕ) : Prop :=
  w.archivedRowCount hour opts.bintrailID = some n ∧
    w.validateArchiveFile (opts.outPath hour) = some n

/-- If the staged file is to go, an uploaded object has as many rows. -/
def Uploaded (w : World Data) (opts : Options) (hour n : ℕ) : Prop :=
  opts.prunes = true → ∃ key : S3Key, key.hour = hour ∧ w.validateObject key = some n

def StageInv (w : World Data) (c : Cycle Data) (hour : ℕ) : Stage Data → Prop
  | .archive => Waiting w c hour
  | .record n => Waiting w c hour ∧ w.validateArchiveFile (c.opts.outPath hour) = some n
  | .upload => Waiting w c hour ∧ ∃ n, Staged w c.opts hour n
  | .mark key => Waiting w c hour ∧ key.hour = hour ∧
      ∃ n, Staged w c.opts hour n ∧ w.validateObject key = some n
  | .check => Waiting w c hour ∧ ∃ n, Staged w c.opts hour n ∧ Uploaded w c.opts hour n
  | .drop archived seen _ => Waiting w c hour ∧
      w.validateArchiveFile (c.opts.outPath hour) = some archived ∧
      Uploaded w c.opts hour archived ∧
      seen.length = archived ∧ seen <+: w.rows (.hourly hour)
  | .recount archived _ => Waiting w c hour ∧
      w.validateArchiveFile (c.opts.outPath hour) = some archived ∧
      Uploaded w c.opts hour archived
  | .discardState => Waiting w c hour
  | .discardFile => Waiting w c hour
  | .prune => c.opts.prunes = true → ∀ d ∈ c.dropped, d.1 = hour →
      ∃ key f, w.objects.lookup key = some f ∧ key.hour = hour ∧
        f.footer = some f.rows.length ∧ d.2 ⊆ f.rows

def PhaseInv (w : World Data) (c : Cycle Data) : Prop :=
  match c.phase with
  | .archiving hour rest stage =>
      (hour :: rest).Nodup ∧ (∀ other ∈ rest, Waiting w c other) ∧ StageInv w c hour stage
  | .checking todo safe _ =>
      (∀ hour ∈ todo, .hourly hour ∈ w.partitions) ∧ ∀ d ∈ safe, Archived w d.1 d.2
  | .dropping safe _ => ∀ d ∈ safe, Archived w d.1 d.2
  | _ => True

/-- What the cycle dropped is archived, and what it knows is true. -/
structure CycleInv (w : World Data) (c : Cycle Data) : Prop where
  kept : ∀ d ∈ c.dropped, Archived w d.1 d.2
  phase : PhaseInv w c

theorem CycleInv.grows {w' : World Data} {c : Cycle Data} (inv : CycleInv w c)
    (grows : Grows w w') : CycleInv w' c := by
  have archived : ∀ hour rows, Archived w hour rows → Archived w' hour rows := by
    intro hour rows archived
    refine archived.mono ?_
    rw [grows.copies]
    exact List.Subset.refl _
  have waiting : ∀ hour, Waiting w c hour → Waiting w' c hour := by
    intro hour waiting
    rw [Waiting, grows.partitions]
    exact waiting
  refine ⟨fun d member => archived _ _ (inv.kept d member), ?_⟩
  have phase := inv.phase
  unfold PhaseInv at phase ⊢
  cases at_ : c.phase with
  | archiving hour rest stage =>
    rw [at_] at phase
    obtain ⟨nodup, others, stageInv⟩ := phase
    refine ⟨nodup, fun other member => waiting other (others other member), ?_⟩
    have files : w'.validateArchiveFile = w.validateArchiveFile := by
      unfold World.validateArchiveFile
      rw [grows.files]
    have objects : w'.validateObject = w.validateObject := by
      unfold World.validateObject
      rw [grows.objects]
    have counts : w'.archivedRowCount = w.archivedRowCount := by
      unfold World.archivedRowCount
      rw [grows.archiveState]
    cases stage with
    | archive | discardState | discardFile => exact waiting hour stageInv
    | record | upload | mark | check | recount =>
      simp only [StageInv, Staged, Uploaded, files, objects, counts] at stageInv ⊢
      exact ⟨waiting hour stageInv.1, stageInv.2⟩
    | drop =>
      simp only [StageInv, Uploaded, files, objects] at stageInv ⊢
      obtain ⟨here, file, uploaded, length, early⟩ := stageInv
      exact ⟨waiting hour here, file, uploaded, length, early.trans (grows.rows _)⟩
    | prune =>
      simp only [StageInv, grows.objects] at stageInv ⊢
      exact stageInv
  | checking todo safe protectActive =>
    rw [at_] at phase
    rw [grows.partitions]
    exact ⟨phase.1, fun d member => archived _ _ (phase.2 d member)⟩
  | dropping safe attempt =>
    rw [at_] at phase
    exact fun d member => archived _ _ (phase d member)
  | adding | returned | failed => trivial

section Steps

variable {w : World Data} {c : Cycle Data} {hour : ℕ} {rest : List ℕ} {o : Outcome}

theorem cycleInv_fail (kept : ∀ d ∈ c.dropped, Archived w d.1 d.2) : CycleInv w c.fail :=
  ⟨kept, trivial⟩

theorem cycleInv_nextPartition (kept : ∀ d ∈ c.dropped, Archived w d.1 d.2) (nodup : rest.Nodup)
    (waiting : ∀ other ∈ rest, Waiting w c other) : CycleInv w (c.nextPartition rest) := by
  cases rest with
  | nil => exact ⟨kept, trivial⟩
  | cons hour rest =>
    exact ⟨kept, nodup, fun other member => waiting other (by simp [member]),
      waiting hour (by simp)⟩

/-- What both the invariant of the files and that of the cycle give. -/
abbrev Safe (p : World Data × Cycle Data) : Prop := Consistent p.1 ∧ CycleInv p.1 p.2

/-- The row of `archive_state` a skipped upload relies on names an object with all its rows. -/
theorem uploaded_of_current {n : ℕ} (consistent : Consistent w)
    (current : UploadCurrent w hour c.opts.bintrailID)
    (marked : w.uploadedAt hour c.opts.bintrailID = true) (staged : Staged w c.opts hour n) :
    ∃ key : S3Key, key.hour = hour ∧ w.validateObject key = some n := by
  obtain ⟨r, found, count⟩ := Option.bind_eq_some_iff.mp staged.1
  unfold World.uploadedAt at marked
  rw [found] at marked
  obtain ⟨-, same⟩ := current r found marked
  rw [count] at same
  obtain ⟨key, named, footer⟩ := Option.bind_eq_some_iff.mp same
  exact ⟨key, (consistent.row _ r found).2 key named, footer⟩

variable (consistent : Consistent w) (kept : ∀ d ∈ c.dropped, Archived w d.1 d.2)
  (nodup : (hour :: rest).Nodup) (others : ∀ other ∈ rest, Waiting w c other) {attempt : ℕ}
  {safe : List (ℕ × List (IndexedRow Data))}

include consistent kept nodup others

theorem archiveStage_safe (inv : StageInv w c hour .archive) :
    Safe (archiveStage w c hour rest o) := by
  unfold archiveStage
  dsimp only
  split
  · rename_i trusted
    simp only [Bool.and_eq_true] at trusted
    refine ⟨consistent, kept, nodup, others, inv, ?_⟩
    have verified := trusted.2
    unfold World.verifiedExistingArchive at verified
    split at verified
    · cases verified
    · rename_i n recorded
      exact ⟨n, recorded, eq_of_beq verified⟩
  · split
    · refine ⟨consistent.archivePartition hour rfl, ?_, nodup, others, inv, ?_⟩
      · exact fun d member =>
          (kept d member).mono (copies_writeFile _ (inv.2 d member))
      · exact validateArchiveFile_eq_some.mpr ⟨_, AList.lookup_insert _, rfl⟩
    · exact ⟨consistent, cycleInv_fail kept⟩

theorem recordStage_safe {n : ℕ} (inv : StageInv w c hour (.record n)) :
    Safe (recordStage w c hour rest n o) := by
  unfold recordStage
  split
  · refine ⟨consistent.recordArchive rfl ?_, kept, nodup, others, inv.1, n,
      archivedRowCount_recordArchive, inv.2⟩
    intro key chosen
    obtain ⟨target, -, rfl⟩ := Option.map_eq_some_iff.mp chosen
    rfl
  · exact ⟨consistent, cycleInv_fail kept⟩

theorem uploadStage_safe (inv : StageInv w c hour .upload)
    (sound : c.opts.retry = true → c.opts.prunes = true →
      UploadCurrent w hour c.opts.bintrailID) :
    Safe (uploadStage w c hour rest o) := by
  obtain ⟨here, n, staged⟩ := inv
  unfold uploadStage
  split
  · rename_i none
    refine ⟨consistent, kept, nodup, others, here, n, staged, fun prunes => ?_⟩
    change c.opts.prunes = true at prunes
    simp [Options.prunes, none] at prunes
  · rename_i target _
    split
    · rename_i skips
      obtain ⟨retry, marked⟩ := Bool.and_eq_true_iff.mp skips
      exact ⟨consistent, kept, nodup, others, here, n, staged, fun prunes =>
        uploaded_of_current consistent (sound retry prunes) marked staged⟩
    · dsimp only
      split
      · rename_i w' uploads
        obtain ⟨f, found, footer⟩ := validateArchiveFile_eq_some.mp staged.2
        obtain ⟨f', found', rfl⟩ := Option.map_eq_some_iff.mp uploads
        obtain rfl : f = f' := Option.some.inj (found.symm.trans found')
        have snap := consistent.file _ f found
        refine ⟨consistent.putObject snap, ?_, nodup, others, here, rfl, n, staged, ?_⟩
        · exact fun d member => (kept d member).mono (copies_putObject _ (here.2 d member))
        · exact validateObject_eq_some.mpr ⟨f, AList.lookup_insert _, footer⟩
      · exact ⟨consistent, cycleInv_nextPartition kept nodup.of_cons others⟩

theorem markStage_safe {key : S3Key} (inv : StageInv w c hour (.mark key)) :
    Safe (markStage w c hour rest key o) := by
  obtain ⟨here, same, n, staged, object⟩ := inv
  unfold markStage
  split
  · have marked : Consistent (w.markUploaded hour c.opts.bintrailID key) :=
      consistent.markUploaded same
    obtain ⟨rows, is, count⟩ : ∃ rows, w.markUploaded hour c.opts.bintrailID key = _ ∧ _ :=
      markUploaded_eq
    rw [is] at marked count ⊢
    exact ⟨marked, kept, nodup, others, here, n, ⟨count.trans staged.1, staged.2⟩,
      fun _ => ⟨key, same, object⟩⟩
  · exact ⟨consistent, cycleInv_fail kept⟩

theorem checkStage_safe (inv : StageInv w c hour .check) : Safe (checkStage w c hour rest o) := by
  obtain ⟨here, n, staged, uploaded⟩ := inv
  unfold checkStage
  dsimp only
  split
  · exact ⟨consistent, cycleInv_fail kept⟩
  split
  · exact ⟨consistent, cycleInv_nextPartition kept nodup.of_cons others⟩
  split
  · rename_i unchanged
    have count : w.archivedRowCount hour c.opts.bintrailID = some (w.partitionRowCount hour) :=
      eq_of_beq unchanged
    obtain rfl : n = w.partitionRowCount hour := Option.some.inj (staged.1.symm.trans count)
    exact ⟨consistent, kept, nodup, others, here, staged.2, uploaded, rfl, prefix_rfl⟩
  · exact ⟨consistent, kept, nodup, others, here⟩

/-- The drop: the staged file holds what was seen, and so does the object that stays. -/
theorem dropStage_safe {archived : ℕ} {seen : List (IndexedRow Data)}
    (inv : StageInv w c hour (.drop archived seen attempt)) :
    Safe (dropStage w c hour rest archived seen attempt o) := by
  obtain ⟨here, file, uploaded, rfl, early⟩ := inv
  cases o with
  | ok =>
    have holds : Archived w hour seen := by
      obtain ⟨f, found, footer⟩ := validateArchiveFile_eq_some.mp file
      have member : f ∈ copies w hour := mem_copies.mpr (.inl ⟨_, found, rfl⟩)
      exact ⟨f, member, consistent.archived member here.1 footer early⟩
    refine ⟨consistent.dropPartitions [hour], ?_, nodup, ?_, ?_⟩
    · exact forall_mem_append.mpr ⟨kept, forall_mem_singleton.mpr holds⟩
    · intro other member
      have ne : other ≠ hour := fun same => (nodup_cons.mp nodup).1 (same ▸ member)
      exact ⟨mem_filter.mpr ⟨(others other member).1, by simpa [PartitionDate] using ne⟩,
        forall_mem_append.mpr ⟨(others other member).2, forall_mem_singleton.mpr ne.symm⟩⟩
    · intro prunes d member same
      rcases mem_append.mp member with member | member
      · exact absurd same (here.2 d member)
      · rw [mem_singleton.mp member]
        obtain ⟨key, rfl, object⟩ := uploaded prunes
        obtain ⟨f, found, footer⟩ := validateObject_eq_some.mp object
        have copy : f ∈ copies w key.hour := mem_copies.mpr (.inr ⟨_, found, rfl⟩)
        exact ⟨key, f, found, rfl, consistent.archived copy here.1 footer early⟩
  | locked =>
    unfold dropStage
    dsimp only
    split
    · exact ⟨consistent, kept, trivial⟩
    · exact ⟨consistent, kept, nodup, others, here, file, uploaded⟩
  | failed => exact ⟨consistent, cycleInv_fail kept⟩

theorem recountStage_safe {archived : ℕ} (inv : StageInv w c hour (.recount archived attempt)) :
    Safe (recountStage w c hour rest archived attempt o) := by
  obtain ⟨here, file, uploaded⟩ := inv
  unfold recountStage
  split
  · exact ⟨consistent, cycleInv_fail kept⟩
  split
  · rename_i unchanged
    have count : some archived = some (w.partitionRowCount hour) := eq_of_beq unchanged
    cases count
    exact ⟨consistent, kept, nodup, others, here, file, uploaded, rfl, prefix_rfl⟩
  · exact ⟨consistent, kept, nodup, others, here⟩

theorem discardStateStage_safe (inv : StageInv w c hour .discardState) :
    Safe (discardStateStage w c hour rest o) := by
  unfold discardStateStage
  split
  · exact ⟨consistent.deleteArchiveState hour _, kept, nodup, others, inv⟩
  · exact ⟨consistent, cycleInv_fail kept⟩

theorem discardFile_safe (inv : StageInv w c hour .discardFile) :
    Safe (removeStaged w c hour o, (c.defer 1).nextPartition rest) := by
  unfold removeStaged
  split
  · refine ⟨consistent.removeFile _, cycleInv_nextPartition ?_ nodup.of_cons others⟩
    exact fun d member => (kept d member).mono (copies_removeFile (inv.2 d member))
  · exact ⟨consistent, cycleInv_nextPartition kept nodup.of_cons others⟩

theorem prune_safe (inv : StageInv w c hour .prune) :
    Safe (if c.opts.prunes then removeStaged w c hour o else w, c.nextPartition rest) := by
  unfold removeStaged
  split
  · rename_i prunes
    split
    · refine ⟨consistent.removeFile _, cycleInv_nextPartition ?_ nodup.of_cons others⟩
      intro d member
      by_cases same : d.1 = hour
      · obtain ⟨key, f, found, sameKey, holds⟩ := inv prunes d member same
        exact ⟨f, mem_copies.mpr (.inr ⟨key, found, sameKey.trans same.symm⟩), holds⟩
      · exact (kept d member).mono (copies_removeFile same)
    · exact ⟨consistent, cycleInv_nextPartition kept nodup.of_cons others⟩
  · exact ⟨consistent, cycleInv_nextPartition kept nodup.of_cons others⟩

omit kept nodup others in
/-- A current copy of a partition holds its rows. -/
theorem archived_of_copyCurrent (live : .hourly hour ∈ w.partitions)
    (current : CopyCurrent w hour) : Archived w hour (w.rows (.hourly hour)) := by
  obtain ⟨⟨k, r⟩, member, rfl, copy⟩ := current
  obtain ⟨samePath, sameKey⟩ := consistent.row k r (AList.mem_lookup_iff.mpr member)
  rcases copy with file | object
  · obtain ⟨f, found, footer⟩ := validateArchiveFile_eq_some.mp file
    have copy : f ∈ copies w k.1 := mem_copies.mpr (.inl ⟨_, found, samePath⟩)
    exact ⟨f, copy, consistent.archived copy live footer prefix_rfl⟩
  · obtain ⟨key, named, object⟩ := Option.bind_eq_some_iff.mp object
    obtain ⟨f, found, footer⟩ := validateObject_eq_some.mp object
    have copy : f ∈ copies w k.1 := mem_copies.mpr (.inr ⟨_, found, sameKey key named⟩)
    exact ⟨f, copy, consistent.archived copy live footer prefix_rfl⟩

omit nodup others in
theorem checkingStep_safe {todo : List ℕ} {protectActive : Bool}
    (live : ∀ hour ∈ todo, .hourly hour ∈ w.partitions)
    (archived : ∀ d ∈ safe, Archived w d.1 d.2)
    (sound : ∀ hour ∈ todo.head?, safeToDrop w hour protectActive = true → CopyCurrent w hour) :
    Safe (checkingStep w c todo safe protectActive o) := by
  cases todo with
  | nil =>
    refine ⟨consistent, kept, ?_⟩
    unfold PhaseInv checkingStep Cycle.goTo
    dsimp only
    split_ifs
    · trivial
    · exact archived
  | cons hour todo =>
    have live' : ∀ other ∈ todo, .hourly other ∈ w.partitions := fun other member =>
      live other (by simp [member])
    unfold checkingStep
    dsimp only
    split
    · exact ⟨consistent, cycleInv_fail kept⟩
    split
    · rename_i safeHere
      have current := sound hour rfl safeHere
      exact ⟨consistent, kept, live', forall_mem_append.mpr ⟨archived, forall_mem_singleton.mpr
        (archived_of_copyCurrent consistent (live hour (by simp)) current)⟩⟩
    · exact ⟨consistent, kept, live', archived⟩

omit nodup others in
theorem droppingStep_safe (archived : ∀ d ∈ safe, Archived w d.1 d.2) :
    Safe (droppingStep w c safe attempt o) := by
  cases o with
  | ok =>
    exact ⟨consistent.dropPartitions _, forall_mem_append.mpr ⟨kept, archived⟩, trivial⟩
  | locked =>
    unfold droppingStep
    dsimp only
    split
    · exact ⟨consistent, kept, trivial⟩
    · exact ⟨consistent, kept, archived⟩
  | failed => exact ⟨consistent, cycleInv_fail kept⟩

omit nodup others in
theorem addingStep_safe (unused : ∀ hour ∈ hoursToAdd w c, copies w hour = []) :
    Safe (addingStep w c attempt o) := by
  unfold addingStep
  dsimp only
  split
  · exact ⟨consistent, kept, trivial⟩
  split
  · exact ⟨consistent, kept, trivial⟩
  cases o with
  | ok =>
    refine ⟨consistent.addFuturePartitions ?_ ?_, kept, trivial⟩
    · exact fun hour member => lt_nextPartitionStart (nowHour w) member
    · intro hour ge lt
      refine unused hour (mem_map.mpr ⟨hour - nextPartitionStart w.named (nowHour w), ?_, ?_⟩)
      · rw [mem_range]
        omega
      · omega
  | locked =>
    dsimp only
    split
    · exact ⟨consistent, kept, trivial⟩
    · exact ⟨consistent, kept, trivial⟩
  | failed => exact ⟨consistent, cycleInv_fail kept⟩

end Steps

/-- One step of a cycle. -/
theorem perform_safe {c : Cycle Data} (consistent : Consistent w) (inv : CycleInv w c)
    (sound : SoundStep w c) (o : Outcome) : Safe (perform w c o) := by
  obtain ⟨kept, phase⟩ := inv
  unfold PhaseInv at phase
  unfold SoundStep at sound
  unfold perform
  cases at_ : c.phase with
  | archiving hour rest stage =>
    rw [at_] at phase sound
    obtain ⟨nodup, others, stageInv⟩ := phase
    cases stage with
    | archive => exact archiveStage_safe consistent kept nodup others stageInv
    | record n => exact recordStage_safe consistent kept nodup others stageInv
    | upload => exact uploadStage_safe consistent kept nodup others stageInv sound
    | mark key => exact markStage_safe consistent kept nodup others stageInv
    | check => exact checkStage_safe consistent kept nodup others stageInv
    | drop archived seen attempt => exact dropStage_safe consistent kept nodup others stageInv
    | recount archived attempt => exact recountStage_safe consistent kept nodup others stageInv
    | discardState => exact discardStateStage_safe consistent kept nodup others stageInv
    | discardFile => exact discardFile_safe consistent kept nodup others stageInv
    | prune => exact prune_safe consistent kept nodup others stageInv
  | checking todo safe protectActive =>
    rw [at_] at phase sound
    refine checkingStep_safe consistent kept phase.1 phase.2 ?_
    cases todo with
    | nil => simp
    | cons hour todo =>
      rintro _ ⟨⟩
      exact sound
  | dropping safe attempt =>
    rw [at_] at phase
    exact droppingStep_safe consistent kept phase
  | adding attempt =>
    rw [at_] at sound
    exact addingStep_safe consistent kept sound
  | returned | failed => exact ⟨consistent, kept, by rw [PhaseInv, at_]; trivial⟩

theorem beginCycle_inv (consistent : Consistent w) (opts : Options) :
    CycleInv w (beginCycle w opts) := by
  have nodup : (toDrop w opts.retainDur).Nodup := by
    refine List.Nodup.filter _ (consistent.nodup.filterMap ?_)
    intro name name' hour date date'
    cases name <;> cases name' <;> simp_all [PartitionDate]
  have live : ∀ hour ∈ toDrop w opts.retainDur, .hourly hour ∈ w.partitions := fun hour member =>
    mem_named.mp (mem_filter.mp member).1
  unfold beginCycle
  split
  · exact ⟨by simp, trivial⟩
  split
  · exact ⟨by simp, trivial⟩
  split
  · exact ⟨by simp, trivial⟩
  · rename_i hour rest chosen
    rw [chosen] at nodup live
    split
    · exact ⟨by simp, live, by simp⟩
    · exact ⟨by simp, nodup, fun other member => ⟨live other (by simp [member]), by simp⟩,
        live hour (by simp), by simp⟩

/-! ## Cycle after cycle -/

def SystemInv (s : System Data) : Prop :=
  Consistent s.world ∧ ∀ c ∈ s.cycle, CycleInv s.world c

theorem SystemInv.act {s : System Data} (inv : SystemInv s) {a : Act Data} (sound : Sound s a) :
    SystemInv (s.act a) := by
  obtain ⟨consistent, cycle⟩ := inv
  cases a with
  | start opts =>
    unfold System.act
    dsimp only
    split
    · exact ⟨consistent, cycle⟩
    · refine ⟨consistent, ?_⟩
      rintro _ ⟨⟩
      exact beginCycle_inv consistent opts
  | step o =>
    unfold System.act
    cases at_ : s.cycle with
    | none => exact ⟨consistent, cycle⟩
    | some c =>
      obtain ⟨consistent', inv'⟩ := perform_safe consistent (cycle c at_) (sound c at_) o
      refine ⟨consistent', ?_⟩
      rintro _ ⟨⟩
      exact inv'
  | interrupt =>
    unfold System.act
    dsimp only
    split
    · refine ⟨consistent, fun c member => ?_⟩
      obtain ⟨c', found, rfl⟩ := Option.map_eq_some_iff.mp member
      exact cycleInv_fail (cycle c' found).kept
    · exact ⟨consistent, cycle⟩
  | arrive row =>
    have grows := grows_insertRow s.world row
    exact ⟨consistent.grows grows, fun c member => (cycle c member).grows grows⟩
  | lose path =>
    unfold System.act
    dsimp only
    split
    · exact ⟨consistent, cycle⟩
    · exact ⟨consistent.removeFile path, by rintro _ ⟨⟩⟩
  | corrupt path file =>
    unfold System.act
    dsimp only
    split
    · exact ⟨consistent, cycle⟩
    · have footer : file.footer = none := sound
      refine ⟨consistent.writeFile fun _ n some => ?_, by rintro _ ⟨⟩⟩
      rw [footer] at some
      cases some
  | pass seconds =>
    have grows : Grows s.world { s.world with clock := s.world.clock + seconds } :=
      ⟨rfl, fun _ => prefix_rfl, rfl, rfl, rfl⟩
    exact ⟨consistent.grows grows, fun c member => (cycle c member).grows grows⟩

/-- Over any number of cycles, with rows arriving and the process ending at any moment, every
row a partition held at its last check before the drop is in a copy that is there afterwards,
if every step is sound. -/
theorem rotation_drops_only_archived {w : World Data} (consistent : Consistent w)
    {acts : List (Act Data)} (sound : Legal System.act Sound ⟨w, none⟩ acts) :
    ∀ c ∈ (acts.foldl System.act ⟨w, none⟩).cycle, ∀ d ∈ c.dropped,
      Archived (acts.foldl System.act ⟨w, none⟩).world d.1 d.2 := by
  have start : SystemInv (⟨w, none⟩ : System Data) := ⟨consistent, by rintro _ ⟨⟩⟩
  have keeps : ∀ (s : System Data) a, SystemInv s → Sound s a → SystemInv (s.act a) :=
    fun _ _ inv sound => inv.act sound
  have inv := Legal.foldl keeps sound start
  exact fun c member => (inv.2 c member).kept

/-- One old hour with one row. -/
def oldHour : World String where
  clock := 360000
  partitions := [.hourly 5, .future]
  rows := fun name => if name = .hourly 5 then [⟨5, "a"⟩] else []
  files := ∅
  objects := ∅
  archiveState := ∅

/-- Archive, upload, drop, prune, as the built-in loop does. -/
def uploading : Options where
  retainDur := 3600
  noReplace := true
  archiveDir := "archives"
  bintrailID := "src"
  archiveS3 := some ⟨"bucket", "events"⟩
  retry := true
  pruneLocalAfterUpload := true

/-- The drop waits once for the table, and a row comes too late for the archive: the hour is
archived again by the next cycle, and then dropped. -/
def lateRow : List (Act String) :=
  [.start uploading, .step .ok, .step .ok, .step .ok, .step .ok, .step .ok, .step .locked,
    .arrive ⟨5, "b"⟩, .step .ok, .step .ok, .step .ok, .step .ok,
    .start uploading, .step .ok, .step .ok, .step .ok, .step .ok, .step .ok, .step .ok, .step .ok]

theorem lateRow_archived :
    (lateRow.foldl System.act ⟨oldHour, none⟩).cycle.map Cycle.dropped =
        some [(5, [⟨5, "a"⟩, ⟨5, "b"⟩])] ∧
      ∀ c ∈ (lateRow.foldl System.act ⟨oldHour, none⟩).cycle, ∀ d ∈ c.dropped,
        Archived (lateRow.foldl System.act ⟨oldHour, none⟩).world d.1 d.2 := by
  have consistent : Consistent oldHour :=
    ⟨by decide, by rintro _ _ ⟨⟩, by rintro _ _ ⟨⟩, by rintro _ _ ⟨⟩⟩
  exact ⟨by decide, rotation_drops_only_archived consistent (by decide)⟩

/-- A run whose last cycle dropped a row no copy holds. -/
def Loses (w : World String) (acts : List (Act String)) : Prop :=
  ∃ c ∈ (acts.foldl System.act ⟨w, none⟩).cycle, ∃ d ∈ c.dropped,
    ¬ Archived (acts.foldl System.act ⟨w, none⟩).world d.1 d.2

instance (w : World String) (acts : List (Act String)) : Decidable (Loses w acts) :=
  inferInstanceAs (Decidable (∃ c ∈ (acts.foldl System.act ⟨w, none⟩).cycle, ∃ d ∈ c.dropped,
    ¬ Archived (acts.foldl System.act ⟨w, none⟩).world d.1 d.2))

/-- Uploaded, and interrupted before the drop. A row comes, and the staged file is lost: the next
cycle archives both rows, finds the upload recorded, drops and prunes. -/
def staleUpload : List (Act String) :=
  [.start uploading, .step .ok, .step .ok, .step .ok, .step .ok, .step .ok, .interrupt,
    .arrive ⟨5, "b"⟩, .lose ⟨"archives", "src", 5⟩,
    .start uploading, .step .ok, .step .ok, .step .ok, .step .ok, .step .ok, .step .ok]

/-- Archived, and interrupted before the drop. A row comes, and a cycle without archiving finds
the hour in `archive_state`. -/
def staleDropOnly : List (Act String) :=
  [.start { uploading with archiveS3 := none }, .step .ok, .step .ok, .interrupt,
    .arrive ⟨5, "b"⟩,
    .start { retainDur := 3600, noReplace := true, protectUnarchived := true },
    .step .ok, .step .ok, .step .ok]

/-- The staged file is damaged where its footer does not show it, and a retry trusts it. -/
def damagedRows : List (Act String) :=
  [.start { uploading with archiveS3 := none }, .step .ok, .step .ok, .interrupt,
    .corrupt ⟨"archives", "src", 5⟩ { rows := [], footer := some 1 },
    .start { uploading with archiveS3 := none }, .step .ok, .step .ok, .step .ok, .step .ok]

/-- The upload of hour 5 fails, hour 6 is dropped, and the partitions added after the latest one
left begin with hour 6 again. A row comes there, and the archive of the first hour 6 passes for
one of the second. -/
def reusedName : List (Act String) :=
  let opts : Options := { uploading with addFuture := 1, pruneLocalAfterUpload := false }
  [.start opts, .step .ok, .step .ok, .step .failed, .step .ok, .step .ok, .step .ok, .step .ok,
    .step .ok, .step .ok, .step .ok, .step .ok, .arrive ⟨6, "c"⟩,
    .start opts, .step .ok, .step .failed, .step .ok, .step .ok, .step .ok, .step .ok]

/-- Two old hours. -/
def twoHours : World String where
  clock := 30600
  partitions := [.hourly 5, .hourly 6, .future]
  rows := fun name =>
    if name = .hourly 5 then [⟨5, "a"⟩] else if name = .hourly 6 then [⟨6, "b"⟩] else []
  files := ∅
  objects := ∅
  archiveState := ∅

theorem rotation_loses_rows :
    Loses oldHour staleUpload ∧ Loses oldHour staleDropOnly ∧ Loses oldHour damagedRows ∧
      Loses twoHours reusedName := by
  decide

end Dbtrail.Rotation
