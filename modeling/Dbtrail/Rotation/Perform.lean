import Dbtrail.Lib.Run

/-!
# Rotation of the index's hourly partitions

`Perform` is one cycle: it archives the partitions past retention and drops each one
after its own checks, or, without an archive directory, checks them all and drops
them in one statement; then it adds future partitions. A cycle is a sequence of
statements and file operations, each of which can fail and between any two of which
the process can end and rows can arrive, so it is a machine here and `perform` is its
step. What one cycle leaves in `archive_state`, on disk and in the bucket is read by
the next, which may run with other options.
-/

namespace Dbtrail.Rotation

/-- An indexed event, with the hour of its timestamp. -/
structure IndexedRow (Data : Type) : Type where
  hour : ℕ
  data : Data
  deriving DecidableEq, Repr

/-- `p_YYYYMMDDHH`, or the catch-all `p_future`. -/
inductive PartitionName : Type where
  | hourly (hour : ℕ)
  | future
  deriving DecidableEq, Repr

def PartitionDate : PartitionName → Option ℕ
  | .hourly hour => some hour
  | .future => none

/-- `HiveArchivePath`. -/
structure ArchivePath : Type where
  archiveDir : String
  bintrailID : String
  hour : ℕ
  deriving DecidableEq, Repr

structure S3Target : Type where
  s3Bucket : String
  s3Prefix : String
  deriving DecidableEq, Repr

/-- `BuildS3Key`: the path below the archive directory, under the target's prefix. -/
structure S3Key : Type where
  target : S3Target
  bintrailID : String
  hour : ℕ
  deriving DecidableEq, Repr

/-- A Parquet file: the rows that can be read back, and the count its footer reports, if
the footer opens. -/
structure ArchiveFile (Data : Type) : Type where
  rows : List (IndexedRow Data)
  footer : Option ℕ
  empty : Bool := false
  deriving DecidableEq, Repr

/-- A row of `archive_state`. -/
structure ArchiveState : Type where
  localPath : ArchivePath
  rowCount : Option ℕ
  s3 : Option S3Key
  s3UploadedAt : Bool
  deriving DecidableEq, Repr

/-- What outlives a cycle. `clock` counts seconds. -/
structure World (Data : Type) : Type where
  clock : ℕ
  partitions : List PartitionName
  rows : PartitionName → List (IndexedRow Data)
  files : AList fun _ : ArchivePath => ArchiveFile Data
  objects : AList fun _ : S3Key => ArchiveFile Data
  archiveState : AList fun _ : ℕ × String => ArchiveState

/-- A zero `retainDur` drops nothing, and an empty `archiveDir` archives nothing. -/
structure Options : Type where
  retainDur : ℕ
  addFuture : ℕ := 0
  noReplace : Bool := false
  archiveDir : String := ""
  bintrailID : String := ""
  archiveS3 : Option S3Target := none
  retry : Bool := false
  protectUnarchived : Bool := false
  pruneLocalAfterUpload : Bool := false
  deriving DecidableEq, Repr

def Options.outPath (opts : Options) (hour : ℕ) : ArchivePath :=
  ⟨opts.archiveDir, opts.bintrailID, hour⟩

def Options.s3Key (opts : Options) (target : S3Target) (hour : ℕ) : S3Key :=
  ⟨target, opts.bintrailID, hour⟩

/-- Whether the staged file goes once the partition is dropped. -/
def Options.prunes (opts : Options) : Bool := opts.pruneLocalAfterUpload && opts.archiveS3.isSome

structure Result : Type where
  dropped : ℕ := 0
  added : ℕ := 0
  deferred : ℕ := 0
  addSkipped : ℕ := 0
  addFutureTarget : ℕ := 0
  deriving DecidableEq, Repr

variable {Data : Type}

namespace World

/-! ## Checks -/

def fileExists (w : World Data) (path : ArchivePath) : Bool :=
  match w.files.lookup path with
  | some file => !file.empty
  | none => false

def validateArchiveFile (w : World Data) (path : ArchivePath) : Option ℕ :=
  (w.files.lookup path).bind ArchiveFile.footer

/-- What the footer of an uploaded object reports. -/
def validateObject (w : World Data) (key : S3Key) : Option ℕ :=
  (w.objects.lookup key).bind ArchiveFile.footer

def archivedRowCount (w : World Data) (hour : ℕ) (bintrailID : String) : Option ℕ :=
  (w.archiveState.lookup (hour, bintrailID)).bind ArchiveState.rowCount

def partitionRowCount (w : World Data) (hour : ℕ) : ℕ := (w.rows (.hourly hour)).length

def archivedPartitionUnchanged (archived : Option ℕ) (live : ℕ) : Bool := archived == some live

def verifiedExistingArchive (w : World Data) (path : ArchivePath) (hour : ℕ)
    (bintrailID : String) : Bool :=
  match w.archivedRowCount hour bintrailID with
  | none => false
  | some recordedRows => w.validateArchiveFile path == some recordedRows

/-- The sources that still owe an upload of the partition, whichever source rotates. -/
def pendingS3Uploads (w : World Data) (hour : ℕ) : List String :=
  w.archiveState.entries.filterMap fun entry =>
    if entry.1.1 = hour ∧ entry.2.s3.isSome ∧ entry.2.s3UploadedAt = false then
      some (if entry.1.2 = "" then "(no id)" else entry.1.2)
    else none

def indexHasArchives (w : World Data) : Bool := !w.archiveState.entries.isEmpty

def partitionArchived (w : World Data) (hour : ℕ) : Bool :=
  w.archiveState.entries.any fun entry => entry.1.1 == hour

def uploadedAt (w : World Data) (hour : ℕ) (bintrailID : String) : Bool :=
  match w.archiveState.lookup (hour, bintrailID) with
  | some row => row.s3UploadedAt
  | none => false

/-! ## Statements and file operations -/

/-- Range partitioning: the first partition whose bound is past the row. -/
def insertRow (w : World Data) (row : IndexedRow Data) : World Data :=
  match w.partitions.find? fun name => (PartitionDate name).all (row.hour ≤ ·) with
  | some name => { w with rows := Function.update w.rows name (w.rows name ++ [row]) }
  | none => w

def writeFile (w : World Data) (path : ArchivePath) (file : ArchiveFile Data) : World Data :=
  { w with files := w.files.insert path file }

def removeFile (w : World Data) (path : ArchivePath) : World Data :=
  { w with files := w.files.erase path }

/-- The file is complete when it takes its name. -/
def archivePartition (w : World Data) (hour : ℕ) (path : ArchivePath) : World Data :=
  w.writeFile path
    { rows := w.rows (.hourly hour)
      footer := some (w.partitionRowCount hour) }

/-- The `INSERT ... ON DUPLICATE KEY UPDATE`: it leaves `s3_uploaded_at` alone, and the
destination too when this cycle has none. -/
def recordArchive (w : World Data) (hour : ℕ) (bintrailID : String) (path : ArchivePath)
    (n : ℕ) (s3 : Option S3Key) : World Data :=
  let row : ArchiveState :=
    match w.archiveState.lookup (hour, bintrailID) with
    | none => ⟨path, some n, s3, false⟩
    | some old => { old with localPath := path, rowCount := some n, s3 := s3.or old.s3 }
  { w with archiveState := w.archiveState.insert (hour, bintrailID) row }

def uploadFile (w : World Data) (path : ArchivePath) (key : S3Key) : Option (World Data) :=
  (w.files.lookup path).map fun file => { w with objects := w.objects.insert key file }

def markUploaded (w : World Data) (hour : ℕ) (bintrailID : String) (key : S3Key) : World Data :=
  match w.archiveState.lookup (hour, bintrailID) with
  | none => w
  | some row =>
      let marked : ArchiveState := { row with s3 := some key, s3UploadedAt := true }
      { w with archiveState := w.archiveState.insert (hour, bintrailID) marked }

def deleteArchiveState (w : World Data) (hour : ℕ) (bintrailID : String) : World Data :=
  { w with archiveState := w.archiveState.erase (hour, bintrailID) }

def dropPartitions (w : World Data) (hours : List ℕ) : World Data :=
  { w with partitions := w.partitions.filter fun name =>
      (PartitionDate name).all fun hour => decide (hour ∉ hours) }

/-- The hours of the named partitions. -/
def named (w : World Data) : List ℕ := w.partitions.filterMap PartitionDate

/-- `p_future` is split into `n` hourly partitions and a new `p_future`. -/
def addFuturePartitions (w : World Data) (start n : ℕ) : World Data :=
  { w with
    partitions := w.partitions.filter (· ≠ .future) ++
      (List.range n).map (fun i => .hourly (start + i)) ++ [.future]
    rows := fun name =>
      match name with
      | .future => (w.rows .future).filter fun row => decide (start + n ≤ row.hour)
      | .hourly hour =>
          if start ≤ hour ∧ hour < start + n then
            (w.rows .future).filter fun row =>
              decide (row.hour = hour ∨ row.hour < start ∧ hour = start)
          else w.rows name }

end World

/-! ## Future partitions -/

def countFuturePartitions (named : List ℕ) (nowHour : ℕ) : ℕ := named.countP (nowHour < ·)

def hoursBehind (named : List ℕ) (nowHour : ℕ) : ℕ :=
  match named.max? with
  | none => 0
  | some latest => nowHour - latest

def nextPartitionStart (named : List ℕ) (nowHour : ℕ) : ℕ :=
  match named.max? with
  | none => nowHour
  | some latest => latest + 1

def computeToAdd (target futureCount dropped : ℕ) (noReplace : Bool) : ℕ :=
  (target - futureCount) + if noReplace then 0 else dropped

/-- How many partitions to add, and how many of them only catch up with the clock. -/
def partitionsToAdd (target : ℕ) (named : List ℕ) (nowHour dropped : ℕ) (noReplace : Bool) :
    ℕ × ℕ :=
  let toAdd := computeToAdd target (countFuturePartitions named nowHour) dropped noReplace
  let behind := if 0 < toAdd ∧ 0 < target then hoursBehind named nowHour else 0
  (toAdd + behind, behind)

/-! ## A cycle -/

/-- Where the archiving of one partition stands. `seen` is what the partition held when
its rows were last counted. -/
inductive Stage (Data : Type) : Type where
  | archive
  | record (n : ℕ)
  | upload
  | mark (key : S3Key)
  | check
  | drop (archived : ℕ) (seen : List (IndexedRow Data)) (attempt : ℕ)
  | recount (archived attempt : ℕ)
  | discardState
  | discardFile
  | prune

inductive Phase (Data : Type) : Type where
  | archiving (hour : ℕ) (rest : List ℕ) (stage : Stage Data)
  | checking (todo : List ℕ) (safe : List (ℕ × List (IndexedRow Data))) (protectActive : Bool)
  | dropping (safe : List (ℕ × List (IndexedRow Data))) (attempt : ℕ)
  | adding (attempt : ℕ)
  | returned
  | failed

/-- `dropped` remembers what each partition the cycle dropped held at its last check. -/
structure Cycle (Data : Type) : Type where
  opts : Options
  phase : Phase Data
  tableBusy : Bool := false
  result : Result := {}
  dropped : List (ℕ × List (IndexedRow Data)) := []

/-- How a statement or file operation went. `locked` is a lock wait that timed out. -/
inductive Outcome : Type where
  | ok
  | locked
  | failed
  deriving DecidableEq, Repr

def ddlLockAttempts : ℕ := 5

namespace Cycle

def goTo (c : Cycle Data) (phase : Phase Data) : Cycle Data := { c with phase }

/-- An error returns no counts. -/
def fail (c : Cycle Data) : Cycle Data := { c with phase := .failed, result := {} }

def defer (c : Cycle Data) (n : ℕ) : Cycle Data :=
  { c with result := { c.result with deferred := c.result.deferred + n } }

def busy (c : Cycle Data) (left : ℕ) : Cycle Data :=
  { c.defer left with tableBusy := true, phase := .adding 1 }

def nextPartition (c : Cycle Data) (rest : List ℕ) : Cycle Data :=
  match rest with
  | [] => c.goTo (.adding 1)
  | hour :: rest => c.goTo (.archiving hour rest .archive)

end Cycle

section Archive

variable (w : World Data) (c : Cycle Data) (hour : ℕ) (rest : List ℕ)

def archiveStage (o : Outcome) : World Data × Cycle Data :=
  let outPath := c.opts.outPath hour
  if c.opts.retry && w.fileExists outPath &&
      w.verifiedExistingArchive outPath hour c.opts.bintrailID then
    (w, c.goTo (.archiving hour rest .upload))
  else if o = .ok ∧ .hourly hour ∈ w.partitions then
    (w.archivePartition hour outPath,
      c.goTo (.archiving hour rest (.record (w.partitionRowCount hour))))
  else (w, c.fail)

def recordStage (n : ℕ) (o : Outcome) : World Data × Cycle Data :=
  if o = .ok then
    (w.recordArchive hour c.opts.bintrailID (c.opts.outPath hour) n
        (c.opts.archiveS3.map fun target => c.opts.s3Key target hour),
      c.goTo (.archiving hour rest .upload))
  else (w, c.fail)

/-- A failed upload leaves the partition for a later cycle. -/
def uploadStage (o : Outcome) : World Data × Cycle Data :=
  match c.opts.archiveS3 with
  | none => (w, c.goTo (.archiving hour rest .check))
  | some target =>
      if c.opts.retry && w.uploadedAt hour c.opts.bintrailID then
        (w, c.goTo (.archiving hour rest .check))
      else
        let key := c.opts.s3Key target hour
        match o, w.uploadFile (c.opts.outPath hour) key with
        | .ok, some w => (w, c.goTo (.archiving hour rest (.mark key)))
        | _, _ => (w, (c.defer 1).nextPartition rest)

def markStage (key : S3Key) (o : Outcome) : World Data × Cycle Data :=
  if o = .ok then
    (w.markUploaded hour c.opts.bintrailID key, c.goTo (.archiving hour rest .check))
  else (w, c.fail)

/-- The partition is dropped if no upload of it is owed and it has as many rows as were
archived. -/
def checkStage (o : Outcome) : World Data × Cycle Data :=
  if o ≠ .ok then (w, c.fail)
  else if w.pendingS3Uploads hour ≠ [] then (w, (c.defer 1).nextPartition rest)
  else
    let archived := w.archivedRowCount hour c.opts.bintrailID
    let live := w.partitionRowCount hour
    if World.archivedPartitionUnchanged archived live then
      (w, c.goTo (.archiving hour rest (.drop live (w.rows (.hourly hour)) 1)))
    else (w, c.goTo (.archiving hour rest .discardState))

def dropStage (archived : ℕ) (seen : List (IndexedRow Data)) (attempt : ℕ) (o : Outcome) :
    World Data × Cycle Data :=
  match o with
  | .ok =>
      (w.dropPartitions [hour],
        { c with
          phase := .archiving hour rest .prune
          result := { c.result with dropped := c.result.dropped + 1 }
          dropped := c.dropped ++ [(hour, seen)] })
  | .locked =>
      if ddlLockAttempts ≤ attempt then (w, c.busy (hour :: rest).length)
      else (w, c.goTo (.archiving hour rest (.recount archived (attempt + 1))))
  | .failed => (w, c.fail)

/-- Rows may have come while the drop waited for the table. -/
def recountStage (archived attempt : ℕ) (o : Outcome) : World Data × Cycle Data :=
  if o ≠ .ok then (w, c.fail)
  else if World.archivedPartitionUnchanged (some archived) (w.partitionRowCount hour) then
    (w, c.goTo (.archiving hour rest (.drop archived (w.rows (.hourly hour)) attempt)))
  else (w, c.goTo (.archiving hour rest .discardState))

def discardStateStage (o : Outcome) : World Data × Cycle Data :=
  if o = .ok then
    (w.deleteArchiveState hour c.opts.bintrailID, c.goTo (.archiving hour rest .discardFile))
  else (w, c.fail)

/-- A staged file that cannot be removed stays. -/
def removeStaged (o : Outcome) : World Data :=
  if o = .ok then w.removeFile (c.opts.outPath hour) else w

def archiveStep (stage : Stage Data) (o : Outcome) : World Data × Cycle Data :=
  match stage with
  | .archive => archiveStage w c hour rest o
  | .record n => recordStage w c hour rest n o
  | .upload => uploadStage w c hour rest o
  | .mark key => markStage w c hour rest key o
  | .check => checkStage w c hour rest o
  | .drop archived seen attempt => dropStage w c hour rest archived seen attempt o
  | .recount archived attempt => recountStage w c hour rest archived attempt o
  | .discardState => discardStateStage w c hour rest o
  | .discardFile => (removeStaged w c hour o, (c.defer 1).nextPartition rest)
  | .prune => (if c.opts.prunes then removeStaged w c hour o else w, c.nextPartition rest)

end Archive

section DropOnly

variable (w : World Data) (c : Cycle Data)

/-- The two checks of the branch that archives nothing. -/
def safeToDrop (hour : ℕ) (protectActive : Bool) : Bool :=
  (!protectActive || w.partitionArchived hour) && (w.pendingS3Uploads hour).isEmpty

def checkingStep (todo : List ℕ) (safe : List (ℕ × List (IndexedRow Data)))
    (protectActive : Bool) (o : Outcome) : World Data × Cycle Data :=
  match todo with
  | [] => (w, c.goTo (if safe.isEmpty then .adding 1 else .dropping safe 1))
  | hour :: todo =>
      if o ≠ .ok then (w, c.fail)
      else if safeToDrop w hour protectActive then
        (w, c.goTo (.checking todo (safe ++ [(hour, w.rows (.hourly hour))]) protectActive))
      else (w, (c.defer 1).goTo (.checking todo safe protectActive))

def droppingStep (safe : List (ℕ × List (IndexedRow Data))) (attempt : ℕ) (o : Outcome) :
    World Data × Cycle Data :=
  match o with
  | .ok =>
      (w.dropPartitions (safe.map Prod.fst),
        { c with
          phase := .adding 1
          result := { c.result with dropped := safe.length }
          dropped := c.dropped ++ safe })
  | .locked =>
      if ddlLockAttempts ≤ attempt then (w, c.busy safe.length)
      else (w, c.goTo (.dropping safe (attempt + 1)))
  | .failed => (w, c.fail)

end DropOnly

section Add

variable (w : World Data) (c : Cycle Data)

def nowHour : ℕ := w.clock / 3600

/-- The hours the cycle means to add. -/
def hoursToAdd : List ℕ :=
  (List.range (partitionsToAdd c.opts.addFuture w.named (nowHour w) c.result.dropped
    c.opts.noReplace).1).map (nextPartitionStart w.named (nowHour w) + ·)

/-- An add that found the table in use is left to a later cycle. -/
def skipAdd (toAdd behind : ℕ) : Cycle Data :=
  { c with
    phase := .returned
    result := { c.result with
      deferred := c.result.deferred + 1
      addSkipped := toAdd
      addFutureTarget := countFuturePartitions w.named (nowHour w) + toAdd - behind } }

def addingStep (attempt : ℕ) (o : Outcome) : World Data × Cycle Data :=
  let (toAdd, behind) :=
    partitionsToAdd c.opts.addFuture w.named (nowHour w) c.result.dropped c.opts.noReplace
  if toAdd = 0 then (w, c.goTo .returned)
  else if c.tableBusy then (w, skipAdd w c toAdd behind)
  else
    match o with
    | .ok =>
        (w.addFuturePartitions (nextPartitionStart w.named (nowHour w)) toAdd,
          { c with phase := .returned, result := { c.result with added := toAdd } })
    | .locked =>
        if ddlLockAttempts ≤ attempt then (w, skipAdd w c toAdd behind)
        else (w, c.goTo (.adding (attempt + 1)))
    | .failed => (w, c.fail)

end Add

/-- The partitions past retention. -/
def toDrop (w : World Data) (retainDur : ℕ) : List ℕ :=
  w.named.filter fun hour => decide (3600 * hour + retainDur < w.clock)

def beginCycle (w : World Data) (opts : Options) : Cycle Data :=
  if opts.archiveS3.isSome ∧ opts.archiveDir = "" then { opts, phase := .failed }
  else if opts.retainDur = 0 then { opts, phase := .adding 1 }
  else
    match toDrop w opts.retainDur with
    | [] => { opts, phase := .adding 1 }
    | hour :: rest =>
        if opts.archiveDir = "" then
          { opts
            phase := .checking (hour :: rest) []
              (opts.protectUnarchived && w.indexHasArchives) }
        else { opts, phase := .archiving hour rest .archive }

/-- One step of `Perform`. -/
def perform (w : World Data) (c : Cycle Data) (o : Outcome) : World Data × Cycle Data :=
  match c.phase with
  | .archiving hour rest stage => archiveStep w c hour rest stage o
  | .checking todo safe protectActive => checkingStep w c todo safe protectActive o
  | .dropping safe attempt => droppingStep w c safe attempt o
  | .adding attempt => addingStep w c attempt o
  | .returned => (w, c)
  | .failed => (w, c)

/-! ## Cycle after cycle -/

/-- The index with its archives, and the cycle that runs or the last one that ran. -/
structure System (Data : Type) : Type where
  world : World Data
  cycle : Option (Cycle Data)

/-- What can happen. Staged files are lost or damaged between cycles; rows arrive at any
moment, and the process can end at any moment. -/
inductive Act (Data : Type) : Type where
  | start (opts : Options)
  | step (o : Outcome)
  | interrupt
  | arrive (row : IndexedRow Data)
  | lose (path : ArchivePath)
  | corrupt (path : ArchivePath) (file : ArchiveFile Data)
  | pass (seconds : ℕ)

def System.running (s : System Data) : Bool :=
  match s.cycle.map Cycle.phase with
  | none => false
  | some .returned => false
  | some .failed => false
  | some _ => true

def System.act (s : System Data) : Act Data → System Data
  | .start opts => if s.running then s else { s with cycle := some (beginCycle s.world opts) }
  | .step o =>
      match s.cycle with
      | none => s
      | some c =>
          let (world, cycle) := perform s.world c o
          ⟨world, some cycle⟩
  | .interrupt => if s.running then { s with cycle := s.cycle.map Cycle.fail } else s
  | .arrive row => { s with world := s.world.insertRow row }
  | .lose path => if s.running then s else ⟨s.world.removeFile path, none⟩
  | .corrupt path file =>
      if s.running ∨ path ∉ s.world.files then s else ⟨s.world.writeFile path file, none⟩
  | .pass seconds => { s with world := { s.world with clock := s.world.clock + seconds } }

end Dbtrail.Rotation
