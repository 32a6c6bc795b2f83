import Dbtrail.Copymirror.Mirror

/-!
# Every mirrored snapshot is whole

What a step of a round can do to the directories that are named as snapshots is little: most steps
touch none of them or only write markers, `publish` adds the one that `settle` left, and `remove`
takes one away (`World.Step.effect`). A job's downloading directory is followed file by file
(`Filling`), so what is renamed holds one listing of the source exactly (`HoldsListing`).

`mirror_rounds` is the outcome for every sequence of rounds.
-/

namespace Dbtrail.Copymirror

open List

variable {Bytes : Type} (f : Formats Bytes) {dir : String}

/-! ## What a snapshot has to hold -/

/-- Exactly the listed files, at their listed sizes, with the digests that the manifest among them
records. An empty digest records none. -/
structure HoldsListing (objs : List ObjectInfo) (files : String → Option Bytes) : Prop where
  exact : ∀ rel, (files rel).isSome = true ↔ ∃ o ∈ objs, o.key = rel ∧ skipped rel = false
  sizes : ∀ o ∈ objs, ∀ b, files o.key = some b → f.size b = o.size
  digests : ∀ raw digests, files manifestName = some raw → f.digests raw = some digests →
    ∀ rel digest, digests.lookup rel = some digest → digest ≠ "" →
      ∃ b, files rel = some b ∧ f.crc32c b = digest

/-- A directory holds one listing that the mirror's source gave of the snapshot of its name. -/
def World.Whole (w : World Bytes) (name : String) (d : Dir Bytes) : Prop :=
  ∃ source infos, w.root.source = some source ∧ (source, name, infos) ∈ w.listings ∧
    HoldsListing f (relative name infos) d.files

/-- Every complete snapshot of `old` is one of `new`, with the same files. -/
def Kept (old new : Root Bytes) : Prop :=
  ∀ name d, Complete f old name d → ∃ d', Complete f new name d' ∧ d'.files = d.files

/-- The newest complete snapshots, as many as are to be kept. -/
structure Newest (r : Root Bytes) (keep : ℕ) (kept : List Snapshot) : Prop where
  count : kept.length = keep
  distinct : (kept.map Snapshot.name).Nodup
  complete : ∀ s ∈ kept, f.parseTime s.name = some s.time ∧ ∃ d, Complete f r s.name d
  newest : ∀ name d time, Complete f r name d → f.parseTime name = some time →
    (∃ s ∈ kept, s.name = name) ∨ ∀ s ∈ kept, time ≤ s.time

/-! ## Directories that are no snapshots -/

theorem tmpDir_hidden (name : String) : f.parseTime (tmpDir name) = none := f.hidden _

theorem asideDir_hidden (name : String) : f.parseTime (asideDir name) = none := f.hidden _

theorem Leftover.hidden {target : Option String} (left : Leftover target dir) :
    f.parseTime dir = none := by
  rcases left with ⟨name, rfl⟩ | ⟨name, rfl, -⟩
  · exact asideDir_hidden f name
  · exact tmpDir_hidden f name

variable {f} {name rel : String} {d : Dir Bytes} {new old r : Root Bytes} {w w' : World Bytes}
  {o : ObjectInfo} {objs : List ObjectInfo} {g : PlannedFile} {job : Job Bytes}
  {held : List Snapshot} {todo : List PlannedFile}

theorem ne_of_hidden (named : (f.parseTime name).isSome = true) (hidden : f.parseTime dir = none) :
    name ≠ dir := by
  rintro rfl
  rw [hidden] at named
  cases named

@[simp] theorem Root.set_dirs_self (r : Root Bytes) (name : String) (d : Option (Dir Bytes)) :
    (r.set name d).dirs name = d := Function.update_self ..

theorem Root.set_dirs_ne (r : Root Bytes) {other : String} (d : Option (Dir Bytes))
    (ne : other ≠ name) : (r.set name d).dirs other = r.dirs other := Function.update_of_ne ne ..

theorem Root.set_hidden (r : Root Bytes) (d : Option (Dir Bytes))
    (named : (f.parseTime name).isSome = true) (hidden : f.parseTime dir = none) :
    (r.set dir d).dirs name = r.dirs name :=
  r.set_dirs_ne d (ne_of_hidden named hidden)

theorem Dir.Marked.of_files {d' : Dir Bytes} (marked : d.Marked) (files : d'.files = d.files)
    (success : d.success = true → d'.success = true) : d'.Marked := by
  rcases marked with flag | ⟨rel, found⟩
  · exact .inl (success flag)
  · exact .inr ⟨rel, by rwa [files]⟩

/-! ## What a step does to the snapshots -/

variable (f) in
/-- The snapshots of `new` are those of `old`, with the same files and no marker lost. -/
structure SameFiles (old new : Root Bytes) : Prop where
  back : ∀ name d', (f.parseTime name).isSome = true → new.dirs name = some d' →
    ∃ d, old.dirs name = some d ∧ d'.files = d.files
  kept : ∀ name d, (f.parseTime name).isSome = true → old.dirs name = some d →
    ∃ d', new.dirs name = some d' ∧ d'.files = d.files ∧ (d.Marked → d'.Marked)

theorem SameFiles.of_eq
    (same : ∀ name, (f.parseTime name).isSome = true → new.dirs name = old.dirs name) :
    SameFiles f old new where
  back name d' named found := ⟨d', by rw [← same name named, found], rfl⟩
  kept name d named found := ⟨d, by rw [same name named, found], rfl, id⟩

theorem SameFiles.refl (r : Root Bytes) : SameFiles f r r := .of_eq fun _ _ => rfl

theorem SameFiles.set_hidden (r : Root Bytes) (d : Option (Dir Bytes))
    (hidden : f.parseTime dir = none) : SameFiles f r (r.set dir d) :=
  .of_eq fun _ named => r.set_hidden d named hidden

theorem SameFiles.set_same {d' : Dir Bytes} (found : r.dirs name = some d)
    (files : d'.files = d.files) (success : d.success = true → d'.success = true) :
    SameFiles f r (r.set name (some d')) where
  back other e' named found' := by
    by_cases eq : other = name
    · subst eq
      rw [Root.set_dirs_self] at found'
      cases found'
      exact ⟨d, found, files⟩
    · rw [r.set_dirs_ne _ eq] at found'
      exact ⟨e', found', rfl⟩
  kept other e named found' := by
    by_cases eq : other = name
    · subst eq
      cases found.symm.trans found'
      exact ⟨d', r.set_dirs_self .., files, fun marked => marked.of_files files success⟩
    · exact ⟨e, by rw [r.set_dirs_ne _ eq, found'], rfl, id⟩

theorem SameFiles.complete (same : SameFiles f old new) (complete : Complete f old name d) :
    ∃ d', Complete f new name d' ∧ d'.files = d.files := by
  obtain ⟨found, named, marked⟩ := complete
  obtain ⟨d', found', files, stays⟩ := same.kept name d named found
  exact ⟨d', ⟨found', named, stays marked⟩, files⟩

theorem Kept.trans {first : Root Bytes} (kept : Kept f first old) (next : Kept f old new) :
    Kept f first new := by
  intro name d complete
  obtain ⟨d', complete', files⟩ := kept name d complete
  obtain ⟨e, complete'', files'⟩ := next name d' complete'
  exact ⟨e, complete'', files'.trans files⟩

theorem SameFiles.keeps (same : SameFiles f old new) : Kept f old new :=
  fun _ _ complete => same.complete complete

theorem publish_kept (free : r.dirs name = none) : Kept f r (renameDir r (tmpDir name) name) := by
  intro other d complete
  have ne : other ≠ name := by
    rintro rfl
    cases free.symm.trans complete.1
  refine ⟨d, ⟨?_, complete.2⟩, rfl⟩
  rw [renameDir, Root.set_dirs_ne _ _ ne,
    Root.set_hidden _ _ complete.2.1 (tmpDir_hidden f name)]
  exact complete.1

variable (f) in
/-- What one step does to the snapshots of the mirror. -/
inductive Effect (w w' : World Bytes) : Prop
  | same (source : w'.root.source = w.root.source) (files : SameFiles f w.root w'.root)
  | claim (noSnapshot : ∀ name d, w'.root.dirs name = some d → f.parseTime name = none)
      (dirs : w'.root.dirs = w.root.dirs)
  | publish (cfg : Config) (job : Job Bytes) (phase : w.phase = .settled cfg job)
      (free : w.root.dirs job.name = none)
      (root : w'.root = renameDir w.root (tmpDir job.name) job.name)
  | remove (cfg : Config) (s : Snapshot) (rest : List Snapshot) (after : Option (Dir Bytes))
      (phase : w.phase = .retaining cfg (s :: rest))
      (root : w'.root = (w.root.set s.name none).set (asideDir s.name) after)
      (phase' : w'.phase = .retaining cfg rest)

theorem World.Step.effect (step : World.Step f w w') : Effect f w w' := by
  cases step with
  | begin | claimSame | listUndone | pickNone | pickOne | keepResumed | upToDate | listHeld
  | removeFails | finish | fail | interrupt => exact .same rfl (.refl _)
  | claimNew _ _ noSnapshot => exact .claim noSnapshot rfl
  | finishRenamed _ found | markPublished _ found =>
    exact .same rfl (.set_same found rfl fun _ => rfl)
  | markFails _ found => exact .same rfl (.set_same found rfl id)
  | sweep _ leftover => exact .same rfl (.set_hidden _ _ (leftover.hidden f))
  | download | replaceWithLink | fetch | fetchUnlinked | part | settle | torn =>
    exact .same rfl (.set_hidden _ _ (tmpDir_hidden f _))
  | publish phase free => exact .publish _ _ phase free rfl
  | remove phase after => exact .remove _ _ _ after phase rfl rfl

theorem World.Step.listings (step : World.Step f w w') : w.listings ⊆ w'.listings := by
  cases step with
  | pickOne => exact subset_cons_self ..
  | _ => exact List.Subset.refl _

/-- Only a removal takes a complete snapshot away. -/
theorem Effect.kept (effect : Effect f w w') (before : ∀ cfg rest, w.phase ≠ .retaining cfg rest) :
    Kept f w.root w'.root := by
  cases effect with
  | same _ files => exact files.keeps
  | claim _ dirs =>
    rintro name d ⟨found, complete⟩
    exact ⟨d, ⟨by rw [dirs, found], complete⟩, rfl⟩
  | publish cfg job phase free root =>
    rw [root]
    exact publish_kept free
  | remove cfg s rest after phase => exact absurd phase (before _ _)

/-! ## A planned download -/

variable (f) in
/-- What a plan says of a snapshot: its files are the listed ones, safe to write, each with the
digest that the manifest records, and the manifest records no other. -/
structure Job.Planned (job : Job Bytes) : Prop where
  consistent : Consistent job.objs
  manifest : job.raw.map f.size =
    (job.objs.find? fun o => o.key == manifestName).map ObjectInfo.size
  listed : ∀ g ∈ job.files, ∃ o ∈ dataObjects job.objs, g.rel = o.key ∧ g.size = o.size
  every : ∀ o ∈ dataObjects job.objs, ∃ g ∈ job.files, g.rel = o.key
  safe : ∀ g ∈ job.files, safeRel g.rel = true
  digest : ∀ g ∈ job.files, g.digest = ((job.digests f).lookup g.rel).getD ""
  recorded : ∀ rel ∈ job.digests f, ∃ o ∈ dataObjects job.objs, o.key = rel

theorem mem_dataObjects :
    o ∈ dataObjects objs ↔ o ∈ objs ∧ skipped o.key = false ∧ o.key ≠ manifestName := by
  simp [dataObjects]

theorem Job.Planned.rel_ne_manifest (planned : job.Planned f) (member : g ∈ job.files) :
    g.rel ≠ manifestName := by
  obtain ⟨o, data, rel, -⟩ := planned.listed g member
  rw [rel]
  exact (mem_dataObjects.mp data).2.2

/-- A file's part name is no file's name. -/
theorem Job.Planned.rel_ne_part (planned : job.Planned f) (member : g ∈ job.files) (rel : String) :
    g.rel ≠ rel ++ partSuffix := by
  intro eq
  have safe := planned.safe g member
  have suffix : partSuffix.toList.isSuffixOf g.rel.toList = true := by
    rw [eq, isSuffixOf_iff_suffix, String.toList_append]
    exact suffix_append ..
  simp [safeRel, suffix] at safe

theorem plan_eq_ok {digests : AList fun _ : String => String} {verify : Bool}
    {files : List PlannedFile} (ok : plan f r name objs digests held verify = .ok files) :
    (∀ o ∈ dataObjects objs, safeRel o.key = true) ∧
      (∀ rel ∈ digests, ∃ o ∈ dataObjects objs, o.key = rel) ∧
      files = (dataObjects objs).map fun o =>
        let digest := (digests.lookup o.key).getD ""
        ⟨o.key, o.size, planFile f r name held verify digest o, digest⟩ := by
  unfold plan at ok
  split at ok
  next => cases ok
  next safe =>
    split at ok
    next => cases ok
    next recorded =>
      cases ok
      refine ⟨fun o data => ?_, fun rel member => ?_, rfl⟩
      · simpa using find?_eq_none.mp safe o data
      · simpa using find?_eq_none.mp recorded rel (AList.mem_keys.mp member)

/-- A file kept from an interrupted round has the digest on disk. -/
theorem planFile_resumed {digest : String}
    (resumed : planFile f r name held true digest o = .resumed) :
    ∃ b, fileAt r (tmpDir name) o.key = some b ∧ f.crc32c b = digest := by
  unfold planFile at resumed
  simp only [if_true] at resumed
  split at resumed
  next => cases resumed
  next =>
    split at resumed
    next has =>
      obtain ⟨b, found, -, crc⟩ : ∃ b, fileAt r (tmpDir name) o.key = some b ∧
          f.size b = o.size ∧ f.crc32c b = digest := by
        simpa [hasBytes, Option.any_eq_true] using has
      exact ⟨b, found, crc⟩
    next =>
      split at resumed
      next => cases resumed
      next => split at resumed <;> cases resumed

/-- A file to link has the digest in a mirrored snapshot. -/
theorem planFile_link {digest prior : String}
    (linked : planFile f r name held true digest o = .link prior) :
    (∃ s ∈ held, s.name = prior) ∧
      ∃ b, fileAt r prior o.key = some b ∧ f.crc32c b = digest := by
  unfold planFile at linked
  simp only [if_true] at linked
  split at linked
  next => cases linked
  next =>
    split at linked
    next => cases linked
    next =>
      split at linked
      next => cases linked
      next s rest =>
        split at linked
        next has =>
          cases linked
          obtain ⟨b, found, -, crc⟩ : ∃ b, fileAt r s.name o.key = some b ∧
              f.size b = o.size ∧ f.crc32c b = digest := by
            simpa [hasBytes, Option.any_eq_true] using has
          exact ⟨⟨s, mem_cons_self, rfl⟩, b, found, crc⟩
        next => cases linked

theorem Prepared.job_planned {cfg : Config} {free : Option ℕ}
    (prepared : Prepared f r cfg held free job) (consistent : Consistent job.objs) :
    job.Planned f := by
  obtain ⟨safe, recorded, files⟩ := plan_eq_ok prepared.planned
  refine ⟨consistent, prepared.manifest, ?_, ?_, ?_, ?_, recorded⟩
  · intro g member
    rw [files] at member
    obtain ⟨o, data, rfl⟩ := mem_map.mp member
    exact ⟨o, data, rfl, rfl⟩
  · intro o data
    rw [files]
    exact ⟨_, mem_map_of_mem data, rfl⟩
  · intro g member
    rw [files] at member
    obtain ⟨o, data, rfl⟩ := mem_map.mp member
    exact safe o data
  · intro g member
    rw [files] at member
    obtain ⟨o, data, rfl⟩ := mem_map.mp member
    rfl

/-! ## A download under way -/

variable (f) in
/-- A file is in its place with the digest that the manifest records of it. -/
def InPlace (g : PlannedFile) (files : String → Option Bytes) : Prop :=
  ∃ b, files g.rel = some b ∧ (g.digest ≠ "" → f.crc32c b = g.digest)

variable (f) in
/-- The downloading directory while `todo` is left: the manifest and every other file are in
place, and so are the bytes that the plan has for the files to keep and to link. -/
structure Filling (r : Root Bytes) (job : Job Bytes) (todo : List PlannedFile) : Prop where
  planned : job.Planned f
  left : todo ⊆ job.files
  dir : ∃ d, r.dirs (tmpDir job.name) = some d ∧
    (∀ b ∈ job.raw, d.files manifestName = some b) ∧
    ∀ g ∈ job.files, (g ∈ todo → g.action = .resumed) → InPlace f g d.files
  links : ∀ g ∈ todo, ∀ prior, g.action = .link prior → (f.parseTime prior).isSome = true ∧
    ∀ b, fileAt r prior g.rel = some b → f.crc32c b = g.digest

theorem fileAt_hidden {prior : String} {d : Option (Dir Bytes)}
    (named : (f.parseTime prior).isSome = true) (hidden : f.parseTime dir = none) :
    fileAt (r.set dir d) prior rel = fileAt r prior rel := by
  rw [fileAt, Root.set_hidden r d named hidden, fileAt]

/-- The directory as it is opened: what an interrupted round left has the bytes that the plan
found there. -/
theorem Filling.opened {cfg : Config} {free : Option ℕ}
    (prepared : Prepared f r cfg held free job) (consistent : Consistent job.objs)
    (named : ∀ s ∈ held, (f.parseTime s.name).isSome = true) :
    Filling f (openTmp r job) job job.files := by
  have planned := prepared.job_planned consistent
  obtain ⟨-, -, files⟩ := plan_eq_ok prepared.planned
  refine ⟨planned, List.Subset.refl _, ⟨_, Root.set_dirs_self .., ?_, ?_⟩, ?_⟩
  · intro b raw
    rw [Option.mem_def] at raw
    simp only [raw]
    exact Function.update_self ..
  · intro g member resumed
    have ne := planned.rel_ne_manifest member
    have action := resumed member
    rw [files] at member
    obtain ⟨o, -, rfl⟩ := mem_map.mp member
    obtain ⟨b, found, crc⟩ := planFile_resumed action
    refine ⟨b, ?_, fun _ => crc⟩
    obtain ⟨d, dir, file⟩ := Option.bind_eq_some_iff.mp found
    simp only [dir, Option.getD_some]
    cases job.raw with
    | none => exact file
    | some raw => simpa [Function.update_of_ne ne] using file
  · intro g member prior linked
    rw [files] at member
    obtain ⟨o, -, rfl⟩ := mem_map.mp member
    obtain ⟨⟨s, isHeld, rfl⟩, b, found, crc⟩ := planFile_link linked
    refine ⟨named s isHeld, fun b' found' => ?_⟩
    rw [openTmp, fileAt_hidden (named s isHeld) (tmpDir_hidden f _)] at found'
    cases found.symm.trans found'
    exact crc

theorem Filling.skip (filling : Filling f r job (g :: todo)) (resumed : g.action = .resumed) :
    Filling f r job todo := by
  obtain ⟨d, dir, manifest, inPlace⟩ := filling.dir
  refine ⟨filling.planned, fun h member => filling.left (mem_cons_of_mem _ member),
    ⟨d, dir, manifest, fun h member later => inPlace h member fun todo => ?_⟩,
    fun h member => filling.links h (mem_cons_of_mem _ member)⟩
  rcases mem_cons.mp todo with rfl | rest
  · exact resumed
  · exact later rest

/-- Bytes with the right digest put in their place. -/
theorem Filling.put {b : Bytes} (filling : Filling f r job (g :: todo))
    (digest : g.digest ≠ "" → f.crc32c b = g.digest) :
    Filling f (putFile r job.name g.rel b) job todo := by
  obtain ⟨d, dir, manifest, inPlace⟩ := filling.dir
  have planned := filling.planned
  have member : g ∈ job.files := filling.left mem_cons_self
  refine ⟨planned, fun h later => filling.left (mem_cons_of_mem _ later),
    ⟨{ d with files := Function.update d.files g.rel (some b) }, by simp [putFile, inTmp, dir],
      ?_, ?_⟩, ?_⟩
  · intro raw isRaw
    exact (Function.update_of_ne (planned.rel_ne_manifest member).symm ..).trans
      (manifest raw isRaw)
  · intro h listed later
    by_cases same : h.rel = g.rel
    · have digests : h.digest = g.digest := by
        rw [planned.digest h listed, planned.digest g member, same]
      exact ⟨b, by simp [same], by rwa [digests]⟩
    · obtain ⟨b', found, crc⟩ := inPlace h listed fun todo => by
        rcases mem_cons.mp todo with rfl | rest
        · exact absurd rfl same
        · exact later rest
      exact ⟨b', by simpa [Function.update_of_ne same] using found, crc⟩
  · intro h later prior linked
    obtain ⟨named, crc⟩ := filling.links h (mem_cons_of_mem _ later) prior linked
    refine ⟨named, fun b' found => crc b' ?_⟩
    rwa [putFile, inTmp, fileAt_hidden named (tmpDir_hidden f _)] at found

/-- A part file is none of the snapshot's. -/
theorem Filling.part {b : Bytes} (filling : Filling f r job todo) :
    Filling f (putFile r job.name (rel ++ partSuffix) b) job todo := by
  obtain ⟨d, dir, manifest, inPlace⟩ := filling.dir
  refine ⟨filling.planned, filling.left,
    ⟨{ d with files := Function.update d.files (rel ++ partSuffix) (some b) },
      by simp [putFile, inTmp, dir], ?_, ?_⟩, ?_⟩
  · intro raw isRaw
    have ne : manifestName ≠ rel ++ partSuffix := by
      intro eq
      have lengths := congrArg String.length eq
      rw [String.length_append] at lengths
      have manifest : manifestName.length = 9 := by decide
      have part : partSuffix.length = 12 := by decide
      omega
    exact (Function.update_of_ne ne ..).trans (manifest raw isRaw)
  · intro h listed later
    obtain ⟨b', found, crc⟩ := inPlace h listed later
    refine ⟨b', ?_, crc⟩
    simpa [Function.update_of_ne (filling.planned.rel_ne_part listed rel)] using found
  · intro h later prior linked
    obtain ⟨named, crc⟩ := filling.links h later prior linked
    refine ⟨named, fun b' found => crc b' ?_⟩
    rwa [putFile, inTmp, fileAt_hidden named (tmpDir_hidden f _)] at found

theorem wanted_iff : wanted job rel = true ↔
    (job.raw.isSome = true ∧ rel = manifestName) ∨ ∃ g ∈ job.files, g.rel = rel := by
  simp [wanted]

/-- The listed manifest is what was read of it. -/
theorem Job.Planned.manifest_listed (planned : job.Planned f) {raw : Bytes}
    (isRaw : job.raw = some raw) :
    ∃ o ∈ job.objs, o.key = manifestName ∧ f.size raw = o.size := by
  have sizes := planned.manifest
  rw [isRaw] at sizes
  cases found : job.objs.find? fun o => o.key == manifestName with
  | none => simp [found] at sizes
  | some o =>
    refine ⟨o, mem_of_find?_eq_some found, by simpa using find?_some found, ?_⟩
    simpa [found] using sizes

theorem Job.Planned.raw_isSome (planned : job.Planned f) (listed : o ∈ job.objs)
    (key : o.key = manifestName) : job.raw.isSome = true := by
  have found : (job.objs.find? fun o => o.key == manifestName).isSome = true :=
    find?_isSome.mpr ⟨o, listed, by simp [key]⟩
  have sizes := congrArg Option.isSome planned.manifest
  simpa [found] using sizes

/-- What `settle` leaves is the listing. -/
theorem Filling.settled (filling : Filling f r job [])
    (sizes : ∀ g ∈ job.files, hasSize f r (tmpDir job.name) g.rel g.size = true) :
    ∃ d, (settle r job).dirs (tmpDir job.name) = some d ∧
      HoldsListing f job.objs d.files := by
  obtain ⟨d, dir, manifest, inPlace⟩ := filling.dir
  have planned := filling.planned
  refine ⟨{ d with files := fun rel => if wanted job rel then d.files rel else none },
    by simp [settle, inTmp, dir], ?_, ?_, ?_⟩
  · intro rel
    constructor
    · intro present
      have want : wanted job rel = true := by
        by_contra unwanted
        simp [unwanted] at present
      rcases wanted_iff.mp want with ⟨isSome, rfl⟩ | ⟨g, member, rfl⟩
      · obtain ⟨raw, isRaw⟩ := Option.isSome_iff_exists.mp isSome
        obtain ⟨o, listed, key, -⟩ := planned.manifest_listed isRaw
        exact ⟨o, listed, key, by decide⟩
      · obtain ⟨o, data, key, -⟩ := planned.listed g member
        obtain ⟨listed, notSkipped, -⟩ := mem_dataObjects.mp data
        exact ⟨o, listed, key.symm, by rw [key]; exact notSkipped⟩
    · rintro ⟨o, listed, rfl, notSkipped⟩
      by_cases key : o.key = manifestName
      · have isSome := planned.raw_isSome listed key
        obtain ⟨raw, isRaw⟩ := Option.isSome_iff_exists.mp isSome
        have want : wanted job o.key = true := wanted_iff.mpr (.inl ⟨isSome, key⟩)
        simp only [want, if_true]
        rw [key, manifest raw isRaw]
        rfl
      · obtain ⟨g, member, rel⟩ := planned.every o (mem_dataObjects.mpr ⟨listed, notSkipped, key⟩)
        obtain ⟨b, found, -⟩ := inPlace g member fun todo => nomatch todo
        have want : wanted job o.key = true := wanted_iff.mpr (.inr ⟨g, member, rel⟩)
        simp only [want, if_true]
        rw [← rel, found]
        rfl
  · intro o listed b found
    have want : wanted job o.key = true := by
      by_contra unwanted
      simp [unwanted] at found
    simp only [want, if_true] at found
    rcases wanted_iff.mp want with ⟨isSome, key⟩ | ⟨g, member, rel⟩
    · obtain ⟨raw, isRaw⟩ := Option.isSome_iff_exists.mp isSome
      obtain ⟨o', listed', key', size⟩ := planned.manifest_listed isRaw
      rw [key, manifest raw isRaw] at found
      cases found
      rw [size, planned.consistent o listed o' listed' (key.trans key'.symm)]
    · obtain ⟨o', data, key, size⟩ := planned.listed g member
      have same : o' = o := planned.consistent o' (mem_dataObjects.mp data).1 o listed
        (key.symm.trans rel)
      have inSize := sizes g member
      rw [hasSize, fileAt, dir, Option.bind_some, rel, found] at inSize
      rw [← same, ← size]
      simpa using inSize
  · intro raw digests found usable rel digest recorded present
    have want : wanted job manifestName = true := by
      by_contra unwanted
      simp [unwanted] at found
    simp only [want, if_true] at found
    have isRaw : job.raw = some raw := by
      rcases wanted_iff.mp want with ⟨isSome, -⟩ | ⟨g, member, rel⟩
      · obtain ⟨raw', isRaw⟩ := Option.isSome_iff_exists.mp isSome
        rw [isRaw, ← manifest raw' isRaw, found]
      · exact absurd rel (planned.rel_ne_manifest member)
    have jobDigests : job.digests f = digests := by simp [Job.digests, isRaw, usable]
    obtain ⟨o, data, key⟩ := planned.recorded rel (by
      rw [jobDigests]
      exact AList.lookup_isSome.mp (by rw [recorded]; rfl))
    obtain ⟨g, member, grel⟩ := planned.every o data
    have gdigest : g.digest = digest := by
      rw [planned.digest g member, jobDigests, grel, key, recorded]
      rfl
    obtain ⟨b, inFile, crc⟩ := inPlace g member fun todo => nomatch todo
    have wantRel : wanted job rel = true := wanted_iff.mpr (.inr ⟨g, member, grel.trans key⟩)
    refine ⟨b, ?_, ?_⟩
    · simp only [wantRel, if_true]
      rw [← key, ← grel, inFile]
    · rw [crc (by rwa [gdigest]), gdigest]

/-! ## Retention -/

variable (f) in
/-- The snapshots `retain` has left to remove are past the newest ones to keep. -/
def Retaining (r : Root Bytes) (keep : ℕ) (rest : List Snapshot) : Prop :=
  rest = [] ∨ ∃ kept, Newest f r keep kept ∧
    ∀ s ∈ rest, (∀ k ∈ kept, k.name ≠ s.name ∧ s.time ≤ k.time) ∧
      f.parseTime s.name = some s.time

theorem Held.retaining (isHeld : Held f r held) (keep : ℕ) :
    Retaining f r keep (held.drop keep) := by
  rcases Nat.lt_or_ge keep held.length with past | enough
  · right
    have split : held.take keep ++ held.drop keep = held := take_append_drop ..
    have sorted := isHeld.newestFirst
    have distinct := isHeld.distinct
    rw [← split, pairwise_append] at sorted
    rw [← split, map_append, nodup_append] at distinct
    refine ⟨held.take keep, ⟨?_, distinct.1, ?_, ?_⟩, ?_⟩
    · rw [length_take, Nat.min_eq_left past.le]
    · intro s member
      obtain ⟨time, d, found, marked⟩ := (isHeld.mem_iff s).mp (mem_of_mem_take member)
      exact ⟨time, d, found, by rw [time]; rfl, marked⟩
    · intro name d time complete parsed
      have member : (⟨name, time⟩ : Snapshot) ∈ held.take keep ++ held.drop keep := by
        rw [split]
        exact (isHeld.mem_iff _).mpr ⟨parsed, d, complete.1, complete.2.2⟩
      rcases mem_append.mp member with front | back
      · exact .inl ⟨_, front, rfl⟩
      · exact .inr fun s kept => sorted.2.2 s kept _ back
    · intro s rest
      refine ⟨fun k kept => ⟨?_, sorted.2.2 k kept s rest⟩,
        ((isHeld.mem_iff s).mp (mem_of_mem_drop rest)).1⟩
      exact distinct.2.2 _ (mem_map_of_mem kept) _ (mem_map_of_mem rest)
  · exact .inl (drop_eq_nil_of_le enough)

theorem Retaining.tail {keep : ℕ} {s : Snapshot} {rest : List Snapshot}
    (retaining : Retaining f r keep (s :: rest)) : Retaining f r keep rest := by
  rcases retaining with empty | ⟨kept, newest, past⟩
  · cases empty
  · exact .inr ⟨kept, newest, fun s member => past s (mem_cons_of_mem _ member)⟩

/-- A removal leaves the newest ones, each at least as new as what is removed. -/
theorem Retaining.remove {keep : ℕ} {s : Snapshot} {rest : List Snapshot}
    (retaining : Retaining f r keep (s :: rest)) (after : Option (Dir Bytes)) :
    ∃ kept, Newest f ((r.set s.name none).set (asideDir s.name) after) keep kept ∧
      ∀ t ∈ s :: rest, (∀ k ∈ kept, k.name ≠ t.name ∧ t.time ≤ k.time) ∧
        f.parseTime t.name = some t.time := by
  rcases retaining with empty | ⟨kept, newest, past⟩
  · cases empty
  · refine ⟨kept, ⟨newest.count, newest.distinct, ?_, ?_⟩, past⟩
    · intro k member
      obtain ⟨time, d, found, named, marked⟩ := newest.complete k member
      refine ⟨time, d, ?_, named, marked⟩
      rw [Root.set_hidden _ _ named (asideDir_hidden f _),
        Root.set_dirs_ne _ _ ((past s mem_cons_self).1 k member).1, found]
    · rintro name d time ⟨found, named, marked⟩ parsed
      refine newest.newest name d time ⟨?_, named, marked⟩ parsed
      rw [Root.set_hidden _ _ named (asideDir_hidden f _)] at found
      by_cases eq : name = s.name
      · subst eq
        rw [Root.set_dirs_self] at found
        cases found
      · rwa [Root.set_dirs_ne _ _ eq] at found

/-! ## Runs -/

variable (f) in
/-- What is known at each point of a round. -/
def PhaseInv (w : World Bytes) : Prop :=
  match w.phase with
  | .claimed cfg => w.root.source = some cfg.source
  | .finishing cfg _ => w.root.source = some cfg.source
  | .picked cfg target held =>
      w.root.source = some cfg.source ∧ (∀ s ∈ held, (f.parseTime s.name).isSome = true) ∧
        ∀ name objs, target = some (name, objs) → ∃ infos, (cfg.source, name, infos) ∈ w.listings ∧
          objs = relative name infos ∧ Consistent objs
  | .filling cfg job todo _ =>
      w.root.source = some cfg.source ∧
        (∃ infos, (cfg.source, job.name, infos) ∈ w.listings ∧ job.objs = relative job.name infos) ∧
        Filling f w.root job todo
  | .settled cfg job =>
      w.root.source = some cfg.source ∧
        (∃ infos, (cfg.source, job.name, infos) ∈ w.listings ∧ job.objs = relative job.name infos) ∧
        ∃ d, w.root.dirs (tmpDir job.name) = some d ∧ HoldsListing f job.objs d.files
  | .retaining cfg rest => Retaining f w.root cfg.keeps rest
  | _ => True

/-- A round that has removed nothing yet, or failed. -/
def Phase.untouched : Phase Bytes → Bool
  | .idle | .retaining _ _ | .ended true => false
  | _ => true

variable (f) in
structure World.Inv (w : World Bytes) : Prop where
  whole : ∀ name d, w.root.dirs name = some d → (f.parseTime name).isSome = true →
    w.Whole f name d
  kept : w.phase.untouched = true → Kept f w.atStart w.root
  phase : PhaseInv f w

theorem World.Initial.inv (initial : w.Initial f) : w.Inv f := by
  refine ⟨fun name d found named => ?_, fun untouched => ?_, ?_⟩
  · rw [initial.noSnapshot name d found] at named
    cases named
  · rw [initial.phase] at untouched
    cases untouched
  · rw [PhaseInv, initial.phase]
    trivial

/-- A path in a snapshot comes from one key. -/
theorem relative_consistent {infos : List ObjectInfo} (consistent : Consistent infos) :
    Consistent (relative name infos) := by
  have origin : ∀ o ∈ relative name infos, ∃ i ∈ infos,
      i.key.toList = (name ++ "/").toList ++ o.key.toList ∧ i.size = o.size := by
    intro o member
    obtain ⟨i, listed, found⟩ := mem_filterMap.mp member
    simp only at found
    split at found
    next below =>
      split at found
      next => cases found
      next =>
        cases found
        refine ⟨i, listed, ?_, rfl⟩
        obtain ⟨rest, split⟩ := isPrefixOf_iff_prefix.mp below
        rw [String.toList_ofList, ← split, drop_left]
    next => cases found
  intro o member o' member' keys
  obtain ⟨i, listed, key, size⟩ := origin o member
  obtain ⟨i', listed', key', size'⟩ := origin o' member'
  have same : i = i' := consistent i listed i' listed'
    (String.toList_injective (by rw [key, key', keys]))
  cases o
  cases o'
  subst same
  simp_all

theorem Whole.of_step (inv : w.Inv f) (step : World.Step f w w')
    (found : w'.root.dirs name = some d) (named : (f.parseTime name).isSome = true) :
    w'.Whole f name d := by
  cases step.effect with
  | same source files =>
    obtain ⟨e, old, same⟩ := files.back name d named found
    obtain ⟨src, infos, isSource, listed, holds⟩ := inv.whole name e old named
    exact ⟨src, infos, source.trans isSource, step.listings listed, by rwa [same]⟩
  | claim noSnapshot =>
    rw [noSnapshot name d found] at named
    cases named
  | publish cfg job phase free root =>
    rw [root, renameDir] at found
    have settled := inv.phase
    rw [PhaseInv, phase] at settled
    obtain ⟨isSource, ⟨infos, listed, objs⟩, e, tmp, holds⟩ := settled
    by_cases eq : name = job.name
    · subst eq
      rw [Root.set_dirs_self, tmp] at found
      cases found
      exact ⟨_, infos, by rw [root]; exact isSource, step.listings listed, objs ▸ holds⟩
    · rw [Root.set_dirs_ne _ _ eq, Root.set_hidden _ _ named (tmpDir_hidden f _)] at found
      obtain ⟨src, infos', isSource', listed', holds'⟩ := inv.whole name d found named
      exact ⟨src, infos', by rw [root]; exact isSource', step.listings listed', holds'⟩
  | remove cfg s rest after phase root =>
    rw [root, Root.set_hidden _ _ named (asideDir_hidden f _)] at found
    by_cases eq : name = s.name
    · subst eq
      rw [Root.set_dirs_self] at found
      cases found
    · rw [Root.set_dirs_ne _ _ eq] at found
      obtain ⟨src, infos, isSource, listed, holds⟩ := inv.whole name d found named
      exact ⟨src, infos, by rw [root]; exact isSource, step.listings listed, holds⟩

theorem PhaseInv.of_step (inv : w.Inv f) (step : World.Step f w w') : PhaseInv f w' := by
  have phaseInv := inv.phase
  cases step with
  | begin | upToDate | finish | fail | torn | markFails | interrupt | publish | markPublished =>
    trivial
  | claimSame _ _ same => exact same
  | claimNew => rfl
  | listUndone phase | finishRenamed phase =>
    rw [PhaseInv, phase] at phaseInv
    exact phaseInv
  | pickNone phase isHeld =>
    rw [PhaseInv, phase] at phaseInv
    refine ⟨phaseInv, fun s member => ?_, nofun⟩
    rw [((isHeld.mem_iff s).mp member).1]
    rfl
  | pickOne phase isHeld _ _ _ _ _ consistent =>
    rw [PhaseInv, phase] at phaseInv
    refine ⟨phaseInv, fun s member => ?_, ?_⟩
    · rw [((isHeld.mem_iff s).mp member).1]
      rfl
    · rintro name objs ⟨⟩
      exact ⟨_, mem_cons_self, rfl, relative_consistent consistent⟩
  | sweep phase =>
    rw [PhaseInv, phase] at phaseInv
    rw [PhaseInv]
    simp only [phase]
    exact phaseInv
  | download phase prepared =>
    rw [PhaseInv, phase] at phaseInv
    obtain ⟨source, named, listed⟩ := phaseInv
    obtain ⟨infos, member, objs, consistent⟩ := listed _ _ rfl
    exact ⟨source, ⟨infos, member, objs⟩, .opened prepared consistent named⟩
  | keepResumed phase resumed =>
    rw [PhaseInv, phase] at phaseInv
    obtain ⟨source, listed, filling⟩ := phaseInv
    exact ⟨source, listed, filling.skip resumed⟩
  | replaceWithLink phase linked found =>
    rw [PhaseInv, phase] at phaseInv
    obtain ⟨source, listed, filling⟩ := phaseInv
    obtain ⟨-, crc⟩ := filling.links _ mem_cons_self _ linked
    exact ⟨source, listed, filling.put fun _ => crc _ found⟩
  | fetch phase _ checked | fetchUnlinked phase _ _ checked =>
    rw [PhaseInv, phase] at phaseInv
    obtain ⟨source, listed, filling⟩ := phaseInv
    exact ⟨source, listed, filling.put checked.2⟩
  | part b phase =>
    rw [PhaseInv, phase] at phaseInv
    rw [PhaseInv]
    simp only [phase]
    obtain ⟨source, listed, filling⟩ := phaseInv
    exact ⟨source, listed, filling.part⟩
  | settle phase sizes =>
    rw [PhaseInv, phase] at phaseInv
    obtain ⟨source, listed, filling⟩ := phaseInv
    exact ⟨source, listed, filling.settled sizes⟩
  | listHeld _ isHeld => exact isHeld.retaining _
  | remove phase after =>
    rw [PhaseInv, phase] at phaseInv
    obtain ⟨kept, newest, past⟩ := phaseInv.remove after
    exact .inr ⟨kept, newest, fun s member => past s (mem_cons_of_mem _ member)⟩
  | removeFails phase =>
    rw [PhaseInv, phase] at phaseInv
    exact phaseInv.tail

/-- The round's first root is kept for as long as nothing is removed. -/
theorem Kept.of_step (inv : w.Inv f) (step : World.Step f w w')
    (untouched : w'.phase.untouched = true) : Kept f w'.atStart w'.root := by
  have next : (∀ cfg rest, w.phase ≠ .retaining cfg rest) → w.phase.untouched = true →
      Kept f w.atStart w'.root :=
    fun before untouched => (inv.kept untouched).trans (step.effect.kept before)
  cases step with
  | begin => exact (SameFiles.refl _).keeps
  | listHeld | finish | interrupt => cases untouched
  | remove | removeFails => cases untouched
  | fail running before =>
    refine next before ?_
    cases phase : w.phase with
    | idle => exact absurd phase running.1
    | ended ok => exact absurd phase (running.2 ok)
    | retaining cfg rest => exact absurd phase (before cfg rest)
    | _ => rfl
  | markFails phase =>
    rcases phase with ⟨undone, phase⟩ | phase
    all_goals exact next (by simp [phase]) (by rw [phase]; rfl)
  | claimSame phase | claimNew phase | listUndone phase | finishRenamed phase | pickNone phase
  | pickOne phase | sweep phase | download phase | keepResumed phase | replaceWithLink phase
  | fetch phase | fetchUnlinked phase | part _ phase | settle phase | publish phase
  | markPublished phase | upToDate phase | torn phase =>
    exact next (by simp [phase]) (by rw [phase]; rfl)

theorem World.Inv.step (inv : w.Inv f) (step : World.Step f w w') : w'.Inv f :=
  ⟨fun _ _ found named => Whole.of_step inv step found named, Kept.of_step inv step,
    PhaseInv.of_step inv step⟩

theorem World.Reachable.inv (reachable : w.Reachable f) : w.Inv f := by
  obtain ⟨first, initial, run⟩ := reachable
  induction run with
  | refl => exact initial.inv
  | tail _ step inv => exact inv.step step

/-- Every sequence of rounds: what is named and marked as a snapshot holds one listing of its
source exactly; a round that failed has every complete snapshot it began with; and a step takes a
complete snapshot away only when as many as are to be kept stay, all at least as new. -/
theorem mirror_rounds {w : World Bytes} (reachable : w.Reachable f) :
    (∀ name d, Complete f w.root name d → w.Whole f name d) ∧
      (w.phase = .ended false → Kept f w.atStart w.root) ∧
      ∀ w', World.Step f w w' → ∀ name d, Complete f w.root name d →
        (∀ d', ¬ Complete f w'.root name d') →
        ∃ cfg rest kept time, w.phase = .retaining cfg rest ∧ f.parseTime name = some time ∧
          Newest f w'.root cfg.keeps kept ∧ ∀ s ∈ kept, time ≤ s.time := by
  have inv := reachable.inv
  refine ⟨fun name d complete => inv.whole name d complete.1 complete.2.1, fun failed => ?_, ?_⟩
  · exact inv.kept (by rw [failed]; rfl)
  · intro w' step name d complete gone
    by_cases retaining : ∃ cfg rest, w.phase = .retaining cfg rest
    · obtain ⟨cfg, rest, phase⟩ := retaining
      cases step.effect with
      | same _ files =>
        obtain ⟨d', complete', -⟩ := files.complete complete
        exact absurd complete' (gone d')
      | claim _ dirs => exact absurd ⟨dirs ▸ complete.1, complete.2⟩ (gone d)
      | publish cfg' job phase' => cases phase.symm.trans phase'
      | remove cfg' s rest' after phase' root =>
        have known := inv.phase
        rw [PhaseInv, phase'] at known
        obtain ⟨kept, newest, past⟩ := known.remove after
        have same : name = s.name := by
          by_contra ne
          refine gone d ⟨?_, complete.2⟩
          rw [root, Root.set_hidden _ _ complete.2.1 (asideDir_hidden f _),
            Root.set_dirs_ne _ _ ne, complete.1]
        obtain ⟨older, parsed⟩ := past s mem_cons_self
        exact ⟨cfg', _, kept, s.time, phase', by rw [same, parsed], by rwa [root],
          fun k member => (older k member).2⟩
    · obtain ⟨d', complete', -⟩ := step.effect.kept
        (fun cfg rest phase => retaining ⟨cfg, rest, phase⟩) name d complete
      exact absurd complete' (gone d')

/-- Texts as contents, each its own checksum; a manifest is one path, a colon and one digest. The
names are two times. -/
def textFormats : Formats String where
  isSpace := Char.isWhitespace
  size := String.length
  crc32c := id
  digests raw := if raw = "t:x" then some (AList.singleton "t" "x") else none
  parseTime name := if name = "1" then some 1 else if name = "2" then some 2 else none
  hidden name := by
    have first : ∀ text : String, text.toList.head? ≠ some '.' → "." ++ name ≠ text := by
      rintro text ne rfl
      exact ne (by simp)
    rw [if_neg (first "1" (by decide)), if_neg (first "2" (by decide))]

/-- The listing of a snapshot with one file and a manifest. -/
def oneFile : List ObjectInfo := [⟨"1/_MANIFEST", 3⟩, ⟨"1/_SUCCESS", 0⟩, ⟨"1/t", 1⟩]

def oneFileJob : Job String :=
  ⟨"1", relative "1" oneFile, some "t:x", [⟨"t", 1, .download, "x"⟩]⟩

/-- The listing of a snapshot without files. -/
def noFile : List ObjectInfo := [⟨"2/_SUCCESS", 0⟩]

def noFileJob : Job String := ⟨"2", relative "2" noFile, none, []⟩

/-- A mirror that keeps one snapshot. -/
def bucket : Config := ⟨"s3://bucket/", 1, -1⟩

theorem textFormats_named {s : Snapshot} (parsed : textFormats.parseTime s.name = some s.time) :
    s = ⟨"1", 1⟩ ∨ s = ⟨"2", 2⟩ := by
  obtain ⟨name, time⟩ := s
  simp only [textFormats] at parsed
  split_ifs at parsed with one two
  · exact .inl (by rw [one, Option.some.inj parsed])
  · exact .inr (by rw [two, Option.some.inj parsed])

/-- A first round brings one snapshot. A second brings the other: when it fails then, both are
there, and when it goes on, the first snapshot is taken away. -/
theorem oneFile_mirrored : ∃ first failed retaining last : World String,
    (∃ d, Complete textFormats first.root "1" d ∧ d.files "t" = some "x" ∧
      first.Whole textFormats "1" d) ∧
    (failed.phase = .ended false ∧ (∃ d, Complete textFormats failed.atStart "1" d) ∧
      Kept textFormats failed.atStart failed.root) ∧
    World.Step textFormats retaining last ∧ (∃ d, Complete textFormats retaining.root "1" d) ∧
      (∀ d, ¬ Complete textFormats last.root "1" d) ∧
      ∃ kept, Newest textFormats last.root 1 kept ∧ ∀ s ∈ kept, 1 ≤ s.time := by
  let start : World String := ⟨⟨none, fun _ => none⟩, [], .idle, ⟨none, fun _ => none⟩⟩
  have initial : start.Initial textFormats :=
    ⟨rfl, (fun _ _ found => nomatch found), rfl, rfl⟩
  have run : Relation.ReflTransGen (World.Step textFormats) start start := .refl
  have begun := run.tail (.begin bucket (.inl rfl))
  have claimed := begun.tail (.claimNew rfl (fun _ missing => nomatch missing)
    (fun _ _ found => nomatch found))
  have listed := claimed.tail (@World.Step.listUndone _ _ _ _ [] rfl
    fun name => ⟨nofun, fun ⟨_, _, found, _⟩ => nomatch found⟩)
  have picked := listed.tail (@World.Step.pickOne _ _ _ _ [] [⟨"1", 1⟩] "1" oneFile rfl
    ⟨.nil, nodup_nil, fun s => ⟨nofun, fun ⟨_, _, found, _⟩ => nomatch found⟩⟩
    5 ["1"] (fun _ => some oneFile) ⟨by rw [show candidates textFormats 5 ["1"] = [⟨"1", 1⟩] by
      decide +kernel], pairwise_singleton ..⟩ (by decide +kernel) (by unfold Consistent; decide))
  have filling := picked.tail (@World.Step.download _ _ _ _ _ oneFileJob none rfl
    ⟨by decide +kernel, by decide +kernel, ⟨_, rfl, rfl⟩, rfl, rfl⟩)
  have fetched := filling.tail (@World.Step.fetch _ _ _ _ _ _ _ _ "x" rfl rfl
    ⟨rfl, fun _ => rfl⟩)
  have settled := fetched.tail (.settle rfl (by decide +kernel))
  have published := settled.tail (.publish rfl rfl)
  have first := published.tail (@World.Step.markPublished _ _ _ _ _ _ rfl rfl false true)
  -- the second round finds the first snapshot and no other
  have again := (first.tail (.interrupt _)).tail (.begin bucket (.inl rfl))
  have same := again.tail (.claimSame rfl (fun unclaimed =>
    absurd (unclaimed "s3://bucket" rfl) (by decide)) (by decide +kernel))
  have relisted := same.tail (@World.Step.listUndone _ _ _ _ [] rfl fun name => by
    refine ⟨nofun, ?_⟩
    rintro ⟨named, d, found, unmarked⟩
    obtain ⟨time, parsed⟩ := Option.isSome_iff_exists.mp named
    rcases @textFormats_named ⟨name, time⟩ parsed with is | is <;> cases is
    · exact absurd (.inl (by cases found; rfl)) unmarked
    · cases found)
  have repicked := relisted.tail (@World.Step.pickOne _ _ _ _ [⟨"1", 1⟩] [⟨"2", 2⟩] "2" noFile rfl
    ⟨pairwise_singleton .., nodup_singleton _, fun s => by
      refine ⟨fun member => ?_, ?_⟩
      · cases mem_singleton.mp member
        exact ⟨rfl, _, rfl, .inl rfl⟩
      · rintro ⟨parsed, d, found, -⟩
        rcases textFormats_named parsed with rfl | rfl
        · exact mem_singleton_self _
        · cases found⟩
    5 ["2"] (fun _ => some noFile) ⟨by rw [show candidates textFormats 5 ["2"] = [⟨"2", 2⟩] by
      decide +kernel], pairwise_singleton ..⟩ (by decide +kernel) (by unfold Consistent; decide))
  have opened := repicked.tail (@World.Step.download _ _ _ _ _ noFileJob none rfl
    ⟨by decide +kernel, nofun, ⟨_, rfl, rfl⟩, rfl, rfl⟩)
  have republished := (opened.tail (.settle rfl nofun)).tail (.publish rfl rfl)
  have second := republished.tail (@World.Step.markPublished _ _ _ _ _ _ rfl rfl false true)
  have failed := second.tail (.fail ⟨nofun, nofun⟩ nofun)
  have retaining := second.tail (@World.Step.listHeld _ _ _ _ [⟨"2", 2⟩, ⟨"1", 1⟩] rfl
    ⟨by decide, by decide, fun s => by
      refine ⟨fun member => ?_, ?_⟩
      · simp only [mem_cons, not_mem_nil, or_false] at member
        rcases member with rfl | rfl
        · exact ⟨rfl, _, rfl, .inl rfl⟩
        · exact ⟨rfl, _, rfl, .inl rfl⟩
      · rintro ⟨parsed, -⟩
        rcases textFormats_named parsed with rfl | rfl <;> simp⟩)
  obtain ⟨w, reachable, phase, d, there⟩ : ∃ w : World String, w.Reachable textFormats ∧
      w.phase = .retaining bucket [⟨"1", 1⟩] ∧ ∃ d, Complete textFormats w.root "1" d :=
    ⟨_, ⟨start, initial, retaining⟩, rfl, _, rfl, rfl, .inl rfl⟩
  have removed := World.Step.remove (f := textFormats) phase none
  have gone : ∀ d,
      ¬ Complete textFormats ((w.root.set "1" none).set (asideDir "1") none) "1" d := by
    rintro d ⟨found, -⟩
    rw [Root.set_dirs_ne _ _ (by decide), Root.set_dirs_self] at found
    cases found
  refine ⟨_, _, w, _, ⟨_, ⟨rfl, rfl, .inl rfl⟩, rfl,
    (mirror_rounds ⟨start, initial, first⟩).1 "1" _ ⟨rfl, rfl, .inl rfl⟩⟩,
    ⟨rfl, ⟨_, rfl, rfl, .inl rfl⟩, (mirror_rounds ⟨start, initial, failed⟩).2.1 rfl⟩,
    removed, ⟨d, there⟩, gone, ?_⟩
  obtain ⟨cfg, rest, kept, time, phase', parsed, newest, older⟩ :=
    (mirror_rounds reachable).2.2 _ removed "1" d there gone
  cases phase.symm.trans phase'
  cases parsed
  exact ⟨kept, newest, older⟩

end Dbtrail.Copymirror
