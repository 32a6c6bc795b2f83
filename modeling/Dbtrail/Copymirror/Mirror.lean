import Mathlib

/-!
# The local mirror of published snapshots

A round of the mirror lists the source, brings its newest complete snapshot into a directory
whose name is no snapshot's, renames it when every file is there, marks it, and removes what is
past the number to keep. A file of the snapshot is kept from an interrupted round, linked from
the newest mirrored snapshot, or downloaded, the first two only when the bytes on disk have the
digest that the snapshot's manifest records.

`World.Step` is one step of a round. The source may answer anything at every request, a write may
stop half way, every step may be the last one of its round, and rounds follow each other with any
configuration.
-/

namespace Dbtrail.Copymirror

variable {Bytes : Type}

/-! ## Names -/

def successMarker : String := "_SUCCESS"
def incompleteMarker : String := "_INCOMPLETE"
def snapshotViewsName : String := "views.sql"
def manifestName : String := "_MANIFEST"
def downloadingSuffix : String := ".downloading"
def removingSuffix : String := ".removing"
def partSuffix : String := ".mirror-part"

/-- What a snapshot has and the mirror does not take from the source. -/
def skipped (rel : String) : Bool :=
  rel == successMarker || rel == incompleteMarker || rel == snapshotViewsName

/-- Whether a key can be written below a directory as it is spelled. -/
def safeRel (rel : String) : Bool :=
  rel != "" && !rel.toList.any (fun c => c == '\\' || c == '\x00') &&
    !partSuffix.toList.isSuffixOf rel.toList &&
    (rel.toList.splitOn '/').all fun seg => !(seg == [] || seg == ['.'] || seg == ['.', '.'])

/-- A directory name spelled with what a time is written with. -/
def plainName (name : String) : Bool :=
  match name.toList with
  | [] => false
  | first :: rest =>
      first != '.' && (first :: rest).all fun c =>
        c.isAlphanum || c == '-' || c == '+' || c == '.'

def tmpDir (name : String) : String := "." ++ (name ++ downloadingSuffix)

def asideDir (name : String) : String := "." ++ (name ++ removingSuffix)

/-! ## The source and the disk -/

structure ObjectInfo : Type where
  key : String
  size : ℕ
  deriving DecidableEq, Repr

/-- Sizes, checksums, manifests and the times names stand for. A manifest this build cannot use
has no digests; a name with a dot in front is no time. -/
structure Formats (Bytes : Type) : Type where
  isSpace : Char → Bool
  size : Bytes → ℕ
  crc32c : Bytes → String
  digests : Bytes → Option (AList fun _ : String => String)
  parseTime : String → Option ℤ
  hidden : ∀ name, parseTime ("." ++ name) = none

/-- A directory of the mirror: its files by path, its markers, its views file. A file that is
linked is never written in place, so a link is a copy. -/
structure Dir (Bytes : Type) : Type where
  files : String → Option Bytes
  success : Bool
  incomplete : Bool
  views : Bool

/-- Something is there under the marker's name: the marker, or a directory on the way to a file
of the snapshot. -/
def Dir.Marked (d : Dir Bytes) : Prop :=
  d.success = true ∨ ∃ rel, (d.files (successMarker ++ ("/" ++ rel))).isSome = true

/-- The mirror's root: the line of its source file, and its directories. -/
structure Root (Bytes : Type) : Type where
  source : Option String
  dirs : String → Option (Dir Bytes)

def Root.set (r : Root Bytes) (name : String) (d : Option (Dir Bytes)) : Root Bytes :=
  { r with dirs := Function.update r.dirs name d }

structure Snapshot : Type where
  name : String
  time : ℤ
  deriving DecidableEq, Repr

variable (f : Formats Bytes)

/-- A directory that is named as a snapshot and carries the marker. -/
def Complete (r : Root Bytes) (name : String) (d : Dir Bytes) : Prop :=
  r.dirs name = some d ∧ (f.parseTime name).isSome = true ∧ d.Marked

/-- The complete snapshots, newest first. Those of one time come in any order. -/
structure Held (r : Root Bytes) (held : List Snapshot) : Prop where
  newestFirst : held.Pairwise fun a b => b.time ≤ a.time
  distinct : (held.map Snapshot.name).Nodup
  mem_iff : ∀ s, s ∈ held ↔
    f.parseTime s.name = some s.time ∧ ∃ d, r.dirs s.name = some d ∧ d.Marked

/-- The snapshots without a marker. -/
def Undone (r : Root Bytes) (names : List String) : Prop :=
  ∀ name, name ∈ names ↔
    (f.parseTime name).isSome = true ∧ ∃ d, r.dirs name = some d ∧ ¬ d.Marked

/-! ## Picking a snapshot -/

/-- The files of a listing, by their path in the snapshot. -/
def relative (name : String) (infos : List ObjectInfo) : List ObjectInfo :=
  infos.filterMap fun o =>
    let dir := (name ++ "/").toList
    if dir.isPrefixOf o.key.toList then
      let rel := String.ofList (o.key.toList.drop dir.length)
      if rel == "" || (rel.toList.getLast? == some '/' && o.size == 0) then none
      else some ⟨rel, o.size⟩
    else none

/-- Whether a listing is a complete snapshot's. -/
def listedComplete (objs : List ObjectInfo) : Bool :=
  let has := fun marker => objs.any fun o => o.key == marker
  !objs.isEmpty && !(has incompleteMarker && !has successMarker)

/-- The snapshots a round may bring, from what the source lists. -/
def candidates (now : ℤ) (dirs : List String) : List Snapshot :=
  dirs.filterMap fun d =>
    match f.parseTime d with
    | some time => if plainName d && decide (time ≤ now) then some ⟨d, time⟩ else none
    | none => none

/-- The walk over the candidates, newest first: the first complete one that is newer than what
the mirror has. A listing that fails ends it. -/
def pick (newest : Option Snapshot) (listInfo : String → Option (List ObjectInfo)) :
    List Snapshot → Option (Option (String × List ObjectInfo))
  | [] => some none
  | s :: rest =>
      if newest.any fun n => decide (s.time ≤ n.time) then some none
      else
        match listInfo s.name with
        | none => none
        | some infos =>
            if listedComplete (relative s.name infos) then some (some (s.name, infos))
            else pick newest listInfo rest

/-! ## Planning a download -/

inductive FileAction : Type where
  | download
  | link (prior : String)
  | resumed
  deriving DecidableEq, Repr

structure PlannedFile : Type where
  rel : String
  size : ℕ
  action : FileAction
  digest : String
  deriving DecidableEq, Repr

inductive PlanError : Type where
  | unsafeName (rel : String)
  | sourceChanged (rel : String)
  deriving DecidableEq, Repr

def fileAt (r : Root Bytes) (dir rel : String) : Option Bytes :=
  (r.dirs dir).bind fun d => d.files rel

def hasBytes (r : Root Bytes) (dir rel : String) (size : ℕ) (digest : String) : Bool :=
  (fileAt r dir rel).any fun b => f.size b == size && f.crc32c b == digest

def hasSize (r : Root Bytes) (dir rel : String) (size : ℕ) : Bool :=
  (fileAt r dir rel).any fun b => f.size b == size

/-- The digests that a mirrored snapshot's own manifest records. -/
def localDigests (r : Root Bytes) (dir : String) : AList fun _ : String => String :=
  ((fileAt r dir manifestName).bind f.digests).getD ∅

/-- Where the bytes of one file come from. -/
def planFile (r : Root Bytes) (name : String) (held : List Snapshot) (verify : Bool)
    (digest : String) (o : ObjectInfo) : FileAction :=
  let tmp := tmpDir name
  if digest = "" then .download
  else if (if verify then hasBytes f r tmp o.key o.size digest else hasSize f r tmp o.key o.size)
  then .resumed
  else
    match held with
    | [] => .download
    | prior :: _ =>
        if (if verify then hasBytes f r prior.name o.key o.size digest
          else (localDigests f r prior.name).lookup o.key == some digest &&
            hasSize f r prior.name o.key o.size)
        then .link prior.name
        else .download

/-- The listed objects that are files of the snapshot and not its manifest. -/
def dataObjects (objs : List ObjectInfo) : List ObjectInfo :=
  objs.filter fun o => !(skipped o.key || o.key == manifestName)

def plan (r : Root Bytes) (name : String) (objs : List ObjectInfo)
    (digests : AList fun _ : String => String) (held : List Snapshot) (verify : Bool) :
    Except PlanError (List PlannedFile) :=
  match (dataObjects objs).find? fun o => !safeRel o.key with
  | some o => .error (.unsafeName o.key)
  | none =>
      match digests.keys.find? fun rel => !(dataObjects objs).any fun o => o.key == rel with
      | some rel => .error (.sourceChanged rel)
      | none => .ok ((dataObjects objs).map fun o =>
          let digest := (digests.lookup o.key).getD ""
          ⟨o.key, o.size, planFile f r name held verify digest o, digest⟩)

def downloadBytes (files : List PlannedFile) : ℕ :=
  ((files.filter fun g => g.action == .download).map PlannedFile.size).sum

def defaultHeadroom : ℕ := 2 ^ 30

/-- Zero asks for the default, a negative number for none. -/
def headroomOf (configured : ℤ) : ℕ :=
  if configured = 0 then defaultHeadroom else configured.toNat

/-- Whether the disk has room; `none` when it cannot be known. -/
def room (free : Option ℕ) (headroom : ℤ) (need : ℕ) : Bool :=
  free.all fun n => decide (need + headroomOf headroom ≤ min n (2 ^ 62))

def maxManifestBytes : ℕ := 64 * 2 ^ 20

/-! ## Rounds -/

/-- What a round is configured with. -/
structure Config : Type where
  sourceName : String
  keep : ℤ
  headroom : ℤ
  deriving DecidableEq, Repr

/-- The source's name as the mirror records it, without one trailing slash. -/
def Config.source (cfg : Config) : String :=
  if cfg.sourceName.toList.getLast? = some '/' then String.ofList cfg.sourceName.toList.dropLast
  else cfg.sourceName

def defaultKeep : ℕ := 2

/-- Zero or less keeps the default number. -/
def Config.keeps (cfg : Config) : ℕ := if cfg.keep ≤ 0 then defaultKeep else cfg.keep.toNat

/-- A snapshot on its way in: its listing, its manifest and every planned file. -/
structure Job (Bytes : Type) : Type where
  name : String
  objs : List ObjectInfo
  raw : Option Bytes
  files : List PlannedFile

def Job.digests (job : Job Bytes) : AList fun _ : String => String :=
  (job.raw.bind f.digests).getD ∅

/-- What `download` has when it makes its directory: the manifest at its listed size, and a plan
that fits on the disk. -/
structure Prepared (r : Root Bytes) (cfg : Config) (held : List Snapshot) (free : Option ℕ)
    (job : Job Bytes) : Prop where
  manifest : job.raw.map f.size =
    (job.objs.find? fun o => o.key == manifestName).map ObjectInfo.size
  bounded : ∀ b ∈ job.raw, f.size b ≤ maxManifestBytes
  least : ∃ files, plan f r job.name job.objs (job.digests f) held false = .ok files ∧
    room free cfg.headroom (downloadBytes files + (job.raw.map f.size).getD 0) = true
  planned : plan f r job.name job.objs (job.digests f) held true = .ok job.files
  fits : room free cfg.headroom (downloadBytes job.files + (job.raw.map f.size).getD 0) = true

/-- Where a round stands. While the files come in, `pending` is what the plan has still to
download. -/
inductive Phase (Bytes : Type) : Type where
  | idle
  | begun (cfg : Config)
  | claimed (cfg : Config)
  | finishing (cfg : Config) (undone : List String)
  | picked (cfg : Config) (target : Option (String × List ObjectInfo)) (held : List Snapshot)
  | filling (cfg : Config) (job : Job Bytes) (todo : List PlannedFile) (pending : ℕ)
  | settled (cfg : Config) (job : Job Bytes)
  | published (cfg : Config) (name : String)
  | retain (cfg : Config)
  | retaining (cfg : Config) (rest : List Snapshot)
  | ended (ok : Bool)

/-- The mirror, with every listing the sources gave, and the root as the round found it. -/
structure World (Bytes : Type) : Type where
  root : Root Bytes
  listings : List (String × String × List ObjectInfo)
  phase : Phase Bytes
  atStart : Root Bytes

/-- A directory no round has been in: no source is named and no directory is a snapshot. -/
structure World.Initial (w : World Bytes) : Prop where
  source : w.root.source = none
  noSnapshot : ∀ name d, w.root.dirs name = some d → f.parseTime name = none
  listings : w.listings = []
  phase : w.phase = .idle

/-- The source file is missing or holds no name. -/
def Unclaimed (r : Root Bytes) : Prop :=
  ∀ line ∈ r.source, line.toList.all f.isSpace = true

/-- The downloading directory as `download` makes it, over what an interrupted round left. -/
def openTmp (r : Root Bytes) (job : Job Bytes) : Root Bytes :=
  let left := (r.dirs (tmpDir job.name)).getD ⟨fun _ => none, false, false, false⟩
  r.set (tmpDir job.name) (some { left with
    incomplete := true
    files := match job.raw with
      | some b => Function.update left.files manifestName (some b)
      | none => left.files })

/-- A change to the files of the downloading directory. -/
def inTmp (r : Root Bytes) (name : String)
    (change : (String → Option Bytes) → String → Option Bytes) : Root Bytes :=
  r.set (tmpDir name) ((r.dirs (tmpDir name)).map fun d => { d with files := change d.files })

/-- A file put in its place in the downloading directory. -/
def putFile (r : Root Bytes) (name rel : String) (b : Bytes) : Root Bytes :=
  inTmp r name fun files => Function.update files rel (some b)

/-- A file the snapshot consists of. -/
def wanted (job : Job Bytes) (rel : String) : Bool :=
  (job.raw.isSome && rel == manifestName) || job.files.any fun g => g.rel == rel

/-- `settle`: only the snapshot's files stay. -/
def settle (r : Root Bytes) (job : Job Bytes) : Root Bytes :=
  inTmp r job.name fun files rel => if wanted job rel then files rel else none

def renameDir (r : Root Bytes) (old new : String) : Root Bytes :=
  (r.set old none).set new (r.dirs old)

/-- `WriteSuccessMarker`: the views file, the marker, and then the other marker removed. -/
def Dir.marked (d : Dir Bytes) (incomplete views : Bool) : Dir Bytes :=
  { d with success := true, incomplete := incomplete, views := views }

/-- What a fetched file must be to get its name. -/
def fetchOK (g : PlannedFile) (b : Bytes) : Prop :=
  f.size b = g.size ∧ (g.digest ≠ "" → f.crc32c b = g.digest)

/-- A directory interrupted rounds leave: one being removed, or a download of another snapshot
than the one this round is after. -/
def Leftover (target : Option String) (dir : String) : Prop :=
  (∃ name, dir = asideDir name) ∨ ∃ name, dir = tmpDir name ∧ target ≠ some name

/-- A listing gives one size for a key. -/
def Consistent (infos : List ObjectInfo) : Prop :=
  ∀ o ∈ infos, ∀ o' ∈ infos, o.key = o'.key → o = o'

open Phase in
/-- One step of a round. A step whose operation fails ends the round in failure; where a failing
write can leave something behind, that is a step of its own. -/
inductive World.Step : World Bytes → World Bytes → Prop
  | begin {w : World Bytes} (cfg : Config) (free : w.phase = idle ∨ ∃ ok, w.phase = ended ok) :
      Step w { w with phase := begun cfg, atStart := w.root }
  | claimSame {w : World Bytes} {cfg : Config} (phase : w.phase = begun cfg)
      (named : ¬ Unclaimed f w.root) (same : w.root.source = some cfg.source) :
      Step w { w with phase := claimed cfg }
  | claimNew {w : World Bytes} {cfg : Config} (phase : w.phase = begun cfg)
      (unclaimed : Unclaimed f w.root)
      (noSnapshot : ∀ name d, w.root.dirs name = some d → f.parseTime name = none) :
      Step w { w with root := { w.root with source := some cfg.source }, phase := claimed cfg }
  | listUndone {w : World Bytes} {cfg : Config} {undone : List String}
      (phase : w.phase = claimed cfg) (listed : Undone f w.root undone) :
      Step w { w with phase := finishing cfg undone }
  | finishRenamed {w : World Bytes} {cfg : Config} {name : String} {undone : List String}
      {d : Dir Bytes} (phase : w.phase = finishing cfg (name :: undone))
      (found : w.root.dirs name = some d) (incomplete views : Bool) :
      Step w { w with
        root := w.root.set name (some (d.marked incomplete views))
        phase := finishing cfg undone }
  | pickNone {w : World Bytes} {cfg : Config} {held : List Snapshot}
      (phase : w.phase = finishing cfg []) (isHeld : Held f w.root held) :
      Step w { w with phase := picked cfg none held }
  | pickOne {w : World Bytes} {cfg : Config} {held snaps : List Snapshot} {name : String}
      {infos : List ObjectInfo} (phase : w.phase = finishing cfg []) (isHeld : Held f w.root held)
      (now : ℤ) (dirs : List String) (listInfo : String → Option (List ObjectInfo))
      (sorted : snaps.Perm (candidates f now dirs) ∧
        snaps.Pairwise fun a b => b.time ≤ a.time)
      (found : pick (held.find? fun s => decide (s.time ≤ now)) listInfo snaps =
        some (some (name, infos)))
      (consistent : Consistent infos) :
      Step w { w with
        listings := (cfg.source, name, infos) :: w.listings
        phase := picked cfg (some (name, relative name infos)) held }
  | sweep {w : World Bytes} {cfg : Config} {target : Option (String × List ObjectInfo)}
      {held : List Snapshot} {dir : String} (phase : w.phase = picked cfg target held)
      (leftover : Leftover (target.map Prod.fst) dir) (after : Option (Dir Bytes)) :
      Step w { w with root := w.root.set dir after }
  | download {w : World Bytes} {cfg : Config} {held : List Snapshot} {job : Job Bytes}
      {free : Option ℕ} (phase : w.phase = picked cfg (some (job.name, job.objs)) held)
      (prepared : Prepared f w.root cfg held free job) :
      Step w { w with
        root := openTmp w.root job
        phase := filling cfg job job.files (downloadBytes job.files) }
  | keepResumed {w : World Bytes} {cfg : Config} {job : Job Bytes} {g : PlannedFile}
      {todo : List PlannedFile} {pending : ℕ}
      (phase : w.phase = filling cfg job (g :: todo) pending) (resumed : g.action = .resumed) :
      Step w { w with phase := filling cfg job todo pending }
  | replaceWithLink {w : World Bytes} {cfg : Config} {job : Job Bytes} {g : PlannedFile}
      {todo : List PlannedFile} {pending : ℕ} {prior : String} {b : Bytes}
      (phase : w.phase = filling cfg job (g :: todo) pending) (linked : g.action = .link prior)
      (source : fileAt w.root prior g.rel = some b) :
      Step w { w with
        root := putFile w.root job.name g.rel b, phase := filling cfg job todo pending }
  | fetch {w : World Bytes} {cfg : Config} {job : Job Bytes} {g : PlannedFile}
      {todo : List PlannedFile} {pending : ℕ} {b : Bytes}
      (phase : w.phase = filling cfg job (g :: todo) pending) (planned : g.action = .download)
      (checked : fetchOK f g b) :
      Step w { w with
        root := putFile w.root job.name g.rel b
        phase := filling cfg job todo (pending - g.size) }
  | fetchUnlinked {w : World Bytes} {cfg : Config} {job : Job Bytes} {g : PlannedFile}
      {todo : List PlannedFile} {pending : ℕ} {prior : String} {b : Bytes} {free : Option ℕ}
      (phase : w.phase = filling cfg job (g :: todo) pending) (linked : g.action = .link prior)
      (fits : room free cfg.headroom (pending + g.size) = true) (checked : fetchOK f g b) :
      Step w { w with
        root := putFile w.root job.name g.rel b, phase := filling cfg job todo pending }
  | part {w : World Bytes} {cfg : Config} {job : Job Bytes} {g : PlannedFile}
      {todo : List PlannedFile} {pending : ℕ} (b : Bytes)
      (phase : w.phase = filling cfg job (g :: todo) pending) :
      Step w { w with root := putFile w.root job.name (g.rel ++ partSuffix) b }
  | settle {w : World Bytes} {cfg : Config} {job : Job Bytes} {pending : ℕ}
      (phase : w.phase = filling cfg job [] pending)
      (inPlace : ∀ g ∈ job.files, hasSize f w.root (tmpDir job.name) g.rel g.size = true) :
      Step w { w with root := Copymirror.settle w.root job, phase := settled cfg job }
  | publish {w : World Bytes} {cfg : Config} {job : Job Bytes} (phase : w.phase = settled cfg job)
      (free : w.root.dirs job.name = none) :
      Step w { w with
        root := renameDir w.root (tmpDir job.name) job.name, phase := published cfg job.name }
  | markPublished {w : World Bytes} {cfg : Config} {name : String} {d : Dir Bytes}
      (phase : w.phase = published cfg name) (found : w.root.dirs name = some d)
      (incomplete views : Bool) :
      Step w { w with
        root := w.root.set name (some (d.marked incomplete views)), phase := retain cfg }
  | upToDate {w : World Bytes} {cfg : Config} {held : List Snapshot}
      (phase : w.phase = picked cfg none held) : Step w { w with phase := retain cfg }
  | listHeld {w : World Bytes} {cfg : Config} {held : List Snapshot} (phase : w.phase = retain cfg)
      (isHeld : Held f w.root held) :
      Step w { w with phase := retaining cfg (held.drop cfg.keeps) }
  | remove {w : World Bytes} {cfg : Config} {s : Snapshot} {rest : List Snapshot}
      (phase : w.phase = retaining cfg (s :: rest)) (after : Option (Dir Bytes)) :
      Step w { w with
        root := (w.root.set s.name none).set (asideDir s.name) after
        phase := retaining cfg rest }
  | removeFails {w : World Bytes} {cfg : Config} {s : Snapshot} {rest : List Snapshot}
      (phase : w.phase = retaining cfg (s :: rest)) :
      Step w { w with phase := retaining cfg rest }
  | finish {w : World Bytes} {cfg : Config} (phase : w.phase = retaining cfg []) :
      Step w { w with phase := ended true }
  | fail {w : World Bytes} (running : w.phase ≠ idle ∧ ∀ ok, w.phase ≠ ended ok)
      (before : ∀ cfg rest, w.phase ≠ retaining cfg rest) :
      Step w { w with phase := ended false }
  | torn {w : World Bytes} {cfg : Config} {job : Job Bytes} {todo : List PlannedFile}
      {pending : ℕ} (phase : w.phase = filling cfg job todo pending) (after : Option (Dir Bytes)) :
      Step w { w with root := w.root.set (tmpDir job.name) after, phase := ended false }
  | markFails {w : World Bytes} {name : String} {d : Dir Bytes} {cfg : Config}
      (phase : (∃ undone, w.phase = finishing cfg (name :: undone)) ∨ w.phase = published cfg name)
      (found : w.root.dirs name = some d) (views : Bool) :
      Step w { w with
        root := w.root.set name (some { d with views := views }), phase := ended false }
  | interrupt (w : World Bytes) : Step w { w with phase := idle }

/-- The worlds of every sequence of rounds. -/
def World.Reachable (w : World Bytes) : Prop :=
  ∃ first : World Bytes, first.Initial f ∧ Relation.ReflTransGen (World.Step f) first w

end Dbtrail.Copymirror
