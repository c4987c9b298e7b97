import Mathlib.Data.List.Nodup
import ObjectInference.Options.Load
import ObjectInference.Proofs.FullPath

/-!
Chains of options files.

Loading reads one file after the other and remembers the full path of every file on
the way. `OptionsFile.Loads` is that recursion without a bound. It comes to an end,
because a file that can be read stands in the tree, and none is read twice. What it
ends with is read off the chain: every setting is that of the first file which gives
it, if the chain has an end and no file stands in it twice, and there is an error
otherwise.
-/

namespace ObjectInference

namespace OptionsFile

variable {t : FileTree} {path base last : Path} {visited : List Path} {file : OptionsFile}
  {extended : String} {r r' : Except LoadError OptionsFile}

/-! ### Reading -/

theorem readFrom_eq_ok (h : readFrom t path = .ok file) : ∃ text, t.read? path = some text := by
  unfold readFrom at h
  cases hread : t.read? path with
  | none =>
      rw [hread] at h
      cases h
  | some text => exact ⟨text, rfl⟩

/-- What is read stands at a place of the tree, and is known by the full path of it. -/
theorem identity_of_readFrom (h : readFrom t path = .ok file) :
    ∃ place, t.locate? path = some place ∧ place.Proper ∧
      identity t path = FileTree.fullPath place ∧ identity t path ∈ t.paths := by
  obtain ⟨text, htext⟩ := readFrom_eq_ok h
  obtain ⟨place, _, hplace, hproper, hmem, _⟩ := FileTree.of_read? htext
  have hidentity : identity t path = FileTree.fullPath place := by rw [identity, hplace]
  exact ⟨place, hplace, hproper, hidentity, hidentity ▸ hmem⟩

/-- Two paths to files have one identity when they lead to one place. -/
theorem identity_eq_iff {path' : Path} {file' : OptionsFile} (h : readFrom t path = .ok file)
    (h' : readFrom t path' = .ok file') :
    identity t path = identity t path' ↔ t.locate? path = t.locate? path' := by
  obtain ⟨place, hplace, hproper, hidentity, _⟩ := identity_of_readFrom h
  obtain ⟨place', hplace', hproper', hidentity', _⟩ := identity_of_readFrom h'
  rw [hidentity, hidentity', hplace, hplace', Option.some.injEq]
  exact ⟨FileTree.fullPath_inj hproper hproper', congrArg FileTree.fullPath⟩

/-- What a file says, and the path of the file that it extends. -/
def readLink (t : FileTree) (path : Path) : Except LoadError (OptionsFile × Option Path) := do
  let file ← readFrom t path
  match file.extended with
  | none => .ok (file, none)
  | some extended => .ok (file, some (← extendedPath path extended))

/-- The path of what a file extends: seen from the directory of the file, and with an
extension if it has none. -/
def extendedFrom (directory : Path) (extended : String) : Path :=
  directory.joined (Path.withExtension extended.toList ['j', 's', 'o', 'n'])

/-- A file that can be read stands in a directory, from which it extends another. -/
theorem readLink_eq_ok_iff {next : Option Path} : readLink t path = .ok (file, next) ↔
    readFrom t path = .ok file ∧ ∃ directory, path.parent? = some directory ∧
      next = file.extended.map (extendedFrom directory) := by
  cases hread : readFrom t path with
  | error e => simp [readLink, hread, bind, Except.bind]
  | ok file' =>
      obtain ⟨text, htext⟩ := readFrom_eq_ok hread
      obtain ⟨_, directory, _, _, _, hdirectory⟩ := FileTree.of_read? htext
      have hlink : readLink t path = .ok (file', file'.extended.map (extendedFrom directory)) := by
        unfold readLink extendedPath
        rw [hread, hdirectory]
        cases hext : file'.extended <;> simp [bind, Except.bind, hext, extendedFrom]
      rw [hlink, hdirectory]
      constructor
      · intro h
        cases h
        exact ⟨rfl, directory, rfl, rfl⟩
      · rintro ⟨h, _, hd, rfl⟩
        cases h
        cases hd
        rfl

theorem readFrom_of_readLink {next : Option Path} (h : readLink t path = .ok (file, next)) :
    readFrom t path = .ok file :=
  (readLink_eq_ok_iff.1 h).1

theorem extended_of_readLink (h : readLink t path = .ok (file, none)) : file.extended = none := by
  obtain ⟨_, _, _, hnext⟩ := readLink_eq_ok_iff.1 h
  exact Option.map_eq_none_iff.1 hnext.symm

/-! ### Loading without a bound -/

theorem loadWithin_succ (t : FileTree) (fuel : Nat) (visited : List Path) (path : Path) :
    loadWithin t (fuel + 1) visited path =
      if identity t path ∈ visited then .error (.cycle (identity t path))
      else
        match readLink t path with
        | .error e => .error e
        | .ok (file, none) => .ok file
        | .ok (file, some base) =>
          (loadWithin t fuel (identity t path :: visited) base).map file.extending := by
  rw [loadWithin, readLink]
  cases readFrom t path with
  | error e => rfl
  | ok file =>
      cases hext : file.extended with
      | none => simp only [bind, Except.bind, hext]
      | some extended =>
          cases hbase : extendedPath path extended with
          | error e => simp only [bind, Except.bind, hext, hbase]
          | ok base =>
              simp only [bind, Except.bind, hext, hbase]
              cases loadWithin t fuel (identity t path :: visited) base <;> rfl

/-- What comes of a path when the identities of the files that lead there are known. -/
inductive Loads (t : FileTree) :
    List Path → Path → Except LoadError OptionsFile → Prop where
  | cycle {visited : List Path} {path : Path} (h : identity t path ∈ visited) :
      Loads t visited path (.error (.cycle (identity t path)))
  | failed {visited : List Path} {path : Path} {e : LoadError} (h : identity t path ∉ visited)
      (hread : readLink t path = .error e) : Loads t visited path (.error e)
  | last {visited : List Path} {path : Path} {file : OptionsFile} (h : identity t path ∉ visited)
      (hread : readLink t path = .ok (file, none)) : Loads t visited path (.ok file)
  | extending {visited : List Path} {path base : Path} {file : OptionsFile}
      {r : Except LoadError OptionsFile} (h : identity t path ∉ visited)
      (hread : readLink t path = .ok (file, some base))
      (hr : Loads t (identity t path :: visited) base r) :
      Loads t visited path (r.map file.extending)

/-- Every path has at most one end. -/
theorem Loads.unique (h : Loads t visited path r) (h' : Loads t visited path r') : r = r' := by
  induction h generalizing r' with
  | cycle h => cases h' <;> first | rfl | contradiction
  | failed h hread => cases h' <;> simp_all
  | last h hread => cases h' <;> simp_all
  | extending h hread _ ih =>
      cases h' with
      | extending _ hread' hr =>
          rw [hread] at hread'
          cases hread'
          rw [ih hr]
      | _ => simp_all

def unvisited (t : FileTree) (visited : List Path) : Nat :=
  (t.paths.filter fun q => !visited.contains q).length

theorem unvisited_lt (h : identity t path ∈ t.paths) (hnew : identity t path ∉ visited) :
    unvisited t (identity t path :: visited) < unvisited t visited := by
  have hfilter : (t.paths.filter fun q => !(identity t path :: visited).contains q) =
      (t.paths.filter fun q => !visited.contains q).filter fun q =>
        decide (q ≠ identity t path) := by
    simp [List.filter_filter]
  unfold unvisited
  rw [hfilter]
  refine List.length_filter_lt_length_iff_exists.2 ⟨identity t path, ?_, by simp⟩
  exact List.mem_filter.2 ⟨h, by simpa using hnew⟩

/-- A bound above the number of files left is never used up. -/
theorem loads_loadWithin {fuel : Nat} (hfuel : unvisited t visited < fuel) (path : Path) :
    Loads t visited path (loadWithin t fuel visited path) := by
  induction fuel generalizing visited path with
  | zero => exact absurd hfuel (Nat.not_lt_zero _)
  | succ fuel ih =>
      rw [loadWithin_succ]
      split
      · rename_i h
        exact .cycle h
      · rename_i h
        split
        · rename_i hread
          exact .failed h hread
        · rename_i hread
          exact .last h hread
        · rename_i hread
          -- The file is one of the tree, so fewer are left after it.
          obtain ⟨_, _, _, _, hmem⟩ := identity_of_readFrom (readFrom_of_readLink hread)
          have hlt := unvisited_lt hmem h
          exact .extending h hread (ih (by omega) _)

theorem load_eq_iff : load t path = r ↔ Loads t [] path r := by
  have hload : Loads t [] path (load t path) := by
    refine loads_loadWithin (Nat.lt_succ_of_le ?_) path
    have hlength : t.paths.length = t.entries.entries.length := by
      simp [FileTree.paths, Table.keys]
    exact hlength ▸ List.length_filter_le _ _
  exact ⟨fun h => h ▸ hload, fun h => hload.unique h⟩

/-! ### What files say together -/

def setting {α : Type} (field : Overrides → Option α) (f : OptionsFile) : Option α :=
  f.inferenceOptions.bind field

/-- What the first of several files that gives a setting says about it. -/
def firstSetting {α : Type} (field : Overrides → Option α) (files : List OptionsFile) :
    Option α :=
  files.findSome? (setting field)

/-- A file that says what several files say together, earlier ones first. -/
structure Inherits (files : List OptionsFile) (f : OptionsFile) : Prop where
  extended : f.extended = none
  absent : f.inferenceOptions = none ↔ ∀ g ∈ files, g.inferenceOptions = none
  eagerBuiltinCalls :
    f.setting Overrides.eagerBuiltinCalls = firstSetting Overrides.eagerBuiltinCalls files
  analyzeSubscriptAssignments : f.setting Overrides.analyzeSubscriptAssignments =
    firstSetting Overrides.analyzeSubscriptAssignments files
  maxInferenceDepth :
    f.setting Overrides.maxInferenceDepth = firstSetting Overrides.maxInferenceDepth files
  maxInferenceIterations : f.setting Overrides.maxInferenceIterations =
    firstSetting Overrides.maxInferenceIterations files

theorem setting_extending {α : Type} {field : Overrides → Option α}
    (hfield : ∀ c b : Overrides, field (c.orElse b) = (field c).or (field b))
    (child base : OptionsFile) :
    (child.extending base).setting field = (child.setting field).or (base.setting field) := by
  unfold setting extending
  cases child.inferenceOptions <;> cases base.inferenceOptions <;> simp [hfield]

theorem firstSetting_cons {α : Type} (field : Overrides → Option α) (f : OptionsFile)
    (files : List OptionsFile) :
    firstSetting field (f :: files) = (f.setting field).or (firstSetting field files) := by
  unfold firstSetting
  rw [List.findSome?_cons]
  cases f.setting field <;> rfl

theorem inherits_single (hend : file.extended = none) : Inherits [file] file := by
  refine ⟨hend, by simp, ?_, ?_, ?_, ?_⟩
  all_goals simp [firstSetting]

/-- A file that extends what several files come to goes before them. -/
theorem Inherits.extending {files : List OptionsFile} {b : OptionsFile} (h : Inherits files b)
    (f : OptionsFile) : Inherits (f :: files) (f.extending b) := by
  refine ⟨rfl, ?_, ?_, ?_, ?_, ?_⟩
  · rw [List.forall_mem_cons, ← h.absent]
    unfold OptionsFile.extending
    cases f.inferenceOptions <;> cases b.inferenceOptions <;> simp
  · rw [setting_extending fun _ _ => rfl, firstSetting_cons, h.eagerBuiltinCalls]
  · rw [setting_extending fun _ _ => rfl, firstSetting_cons, h.analyzeSubscriptAssignments]
  · rw [setting_extending fun _ _ => rfl, firstSetting_cons, h.maxInferenceDepth]
  · rw [setting_extending fun _ _ => rfl, firstSetting_cons, h.maxInferenceIterations]

/-! ### Chains -/

structure Link where
  path : Path
  file : OptionsFile

/-- From a path on, files each of which extends the next, up to a last path. -/
inductive Leads (t : FileTree) : Path → List Link → Path → Prop where
  | here (path : Path) : Leads t path [] path
  | extending {path base last : Path} {file : OptionsFile} {links : List Link}
      (hread : readLink t path = .ok (file, some base)) (h : Leads t base links last) :
      Leads t path (⟨path, file⟩ :: links) last

/-- From a path on, files each of which extends the next, up to one that extends none. -/
inductive Chain (t : FileTree) : Path → List Link → Prop where
  | last {path : Path} {file : OptionsFile} (hread : readLink t path = .ok (file, none)) :
      Chain t path [⟨path, file⟩]
  | extending {path base : Path} {file : OptionsFile} {links : List Link}
      (hread : readLink t path = .ok (file, some base)) (h : Chain t base links) :
      Chain t path (⟨path, file⟩ :: links)

def identities (t : FileTree) (links : List Link) : List Path :=
  links.map fun l => identity t l.path

/-- From a path on there is at most one chain. -/
theorem Chain.unique {links links' : List Link} (h : Chain t path links)
    (h' : Chain t path links') : links = links' := by
  induction h generalizing links' with
  | last hread => cases h' <;> simp_all
  | extending hread _ ih =>
      cases h' with
      | last hread' => simp_all
      | extending hread' h' =>
          rw [hread] at hread'
          cases hread'
          rw [ih h']

/-- Loading with a result has gone through a chain of new files. -/
theorem Loads.chain (h : Loads t visited path (.ok file)) :
    ∃ links, Chain t path links ∧ (identities t links).Nodup ∧
      (∀ q ∈ identities t links, q ∉ visited) ∧ Inherits (links.map Link.file) file := by
  generalize hr : (.ok file : Except LoadError OptionsFile) = r at h
  induction h generalizing file with
  | cycle => cases hr
  | failed => cases hr
  | @last visited path file' h hread =>
      cases hr
      exact ⟨[⟨path, file'⟩], .last hread, List.nodup_singleton _, by simpa [identities] using h,
        inherits_single (extended_of_readLink hread)⟩
  | @extending visited path base file' r h hread _ ih =>
      cases r with
      | error => cases hr
      | ok b =>
          cases hr
          obtain ⟨links, hchain, hnodup, hnew, hinherits⟩ := ih rfl
          refine ⟨⟨path, file'⟩ :: links, .extending hread hchain, ?_, ?_,
            hinherits.extending file'⟩
          · refine List.nodup_cons.2 ⟨fun hmem => ?_, hnodup⟩
            exact hnew _ hmem List.mem_cons_self
          · refine List.forall_mem_cons.2 ⟨h, fun q hq hv => ?_⟩
            exact hnew q hq (List.mem_cons_of_mem _ hv)

/-- Loading goes through a chain of new files to its end. -/
theorem Chain.loads {links : List Link} (h : Chain t path links)
    (hnodup : (identities t links).Nodup) (hnew : ∀ q ∈ identities t links, q ∉ visited) :
    ∃ file, Loads t visited path (.ok file) := by
  induction h generalizing visited with
  | last hread => exact ⟨_, .last (hnew _ List.mem_cons_self) hread⟩
  | @extending path base file links hread _ ih =>
      obtain ⟨hself, hnodup⟩ := List.nodup_cons.1 hnodup
      obtain ⟨hpath, hnew⟩ := List.forall_mem_cons.1 hnew
      have hnew' : ∀ q ∈ identities t links, q ∉ identity t path :: visited := by
        intro q hq hv
        rcases List.mem_cons.1 hv with rfl | hv
        · exact hself hq
        · exact hnew q hq hv
      obtain ⟨b, hb⟩ := ih hnodup hnew'
      exact ⟨file.extending b, .extending hpath hread hb⟩

/-- Loading that is led back to a file ends there, or at a file met twice before. -/
theorem Leads.cycle {links : List Link} (h : Leads t path links last)
    (hlast : identity t last ∈ visited ∨ identity t last ∈ identities t links)
    (hr : Loads t visited path r) : ∃ q, r = .error (.cycle q) := by
  induction h generalizing visited r with
  | here path =>
      have hmem := hlast.resolve_right List.not_mem_nil
      cases hr with
      | cycle _ => exact ⟨_, rfl⟩
      | _ => contradiction
  | @extending path base last file links hread _ ih =>
      cases hr with
      | cycle _ => exact ⟨_, rfl⟩
      | extending _ hread' hr =>
          rw [hread] at hread'
          cases hread'
          have hlast : identity t last ∈ identity t path :: visited ∨
              identity t last ∈ identities t links := by
            rcases hlast with hlast | hlast
            · exact .inl (List.mem_cons_of_mem _ hlast)
            · rcases List.mem_cons.1 hlast with hlast | hlast
              · exact .inl (hlast ▸ List.mem_cons_self)
              · exact .inr hlast
          obtain ⟨q, rfl⟩ := ih hlast hr
          exact ⟨q, rfl⟩
      | _ => simp_all

theorem exists_load_iff : (∃ file, load t path = .ok file) ↔
    ∃ links, Chain t path links ∧ (identities t links).Nodup := by
  constructor
  · rintro ⟨file, h⟩
    obtain ⟨links, hchain, hnodup, _⟩ := (load_eq_iff.1 h).chain
    exact ⟨links, hchain, hnodup⟩
  · rintro ⟨links, hchain, hnodup⟩
    have hnew : ∀ q ∈ identities t links, q ∉ ([] : List Path) := fun _ _ => List.not_mem_nil
    obtain ⟨file, h⟩ := hchain.loads hnodup hnew
    exact ⟨file, load_eq_iff.2 h⟩

theorem inherits_of_load {links : List Link} (hchain : Chain t path links)
    (h : load t path = .ok file) : Inherits (links.map Link.file) file := by
  obtain ⟨links', hchain', _, _, hinherits⟩ := (load_eq_iff.1 h).chain
  rw [hchain.unique hchain']
  exact hinherits

/-! ### Options -/

/-- The options that several files come to, earlier ones first and the defaults last. -/
def settled (files : List OptionsFile) : Options :=
  let defaults : Options := {}
  { eagerBuiltinCalls :=
      (firstSetting Overrides.eagerBuiltinCalls files).getD defaults.eagerBuiltinCalls
    analyzeSubscriptAssignments :=
      (firstSetting Overrides.analyzeSubscriptAssignments files).getD
        defaults.analyzeSubscriptAssignments
    maxInferenceDepth :=
      (firstSetting Overrides.maxInferenceDepth files).getD defaults.maxInferenceDepth
    maxInferenceIterations :=
      (firstSetting Overrides.maxInferenceIterations files).getD
        defaults.maxInferenceIterations }

/-- Options of which both limits are at least one. -/
def Admissible (o : Options) : Prop := 1 ≤ o.maxInferenceDepth ∧ 1 ≤ o.maxInferenceIterations

/-- A file comes to what the files say that it inherits from, if that is admissible. -/
theorem resolve_eq_ok_iff {files : List OptionsFile} (h : Inherits files file) {o : Options} :
    file.resolve = .ok o ↔ o = settled files ∧ Admissible o := by
  have hgetD : ∀ {α : Type} (field : Overrides → Option α) (d : α),
      field {} = none → (field (file.inferenceOptions.getD {})).getD d =
        (file.setting field).getD d := by
    intro α field d hfield
    unfold setting
    cases file.inferenceOptions <;> simp [hfield]
  have happly : (file.inferenceOptions.getD {}).apply {} = settled files := by
    unfold settled Overrides.apply
    rw [← h.eagerBuiltinCalls, ← h.analyzeSubscriptAssignments, ← h.maxInferenceDepth,
      ← h.maxInferenceIterations]
    simp only [hgetD]
  unfold resolve
  rw [happly]
  dsimp only
  split
  · rename_i hdepth
    refine ⟨nofun, ?_⟩
    rintro ⟨rfl, hadmissible, _⟩
    omega
  split
  · rename_i hiterations
    refine ⟨nofun, ?_⟩
    rintro ⟨rfl, _, hadmissible⟩
    omega
  · rename_i hdepth hiterations
    constructor
    · intro ho
      cases ho
      exact ⟨rfl, Nat.pos_of_ne_zero hdepth, Nat.pos_of_ne_zero hiterations⟩
    · rintro ⟨rfl, _⟩
      rfl

end OptionsFile

theorem Options.load_eq_ok_iff {t : FileTree} {path : Path} {o : Options} :
    Options.load t path = .ok o ↔
      ∃ file, OptionsFile.load t path = .ok file ∧ file.resolve = .ok o := by
  unfold Options.load
  cases OptionsFile.load t path with
  | error e => simp [bind, Except.bind]
  | ok file =>
      cases hresolve : file.resolve <;> simp [bind, Except.bind, hresolve]

open OptionsFile in
/-- Loading follows one chain of files. The recursion ends for every path, and with what
loading gives. It has a result just when every file of the chain can be read, none stands
in it twice, and the last extends none; then each setting is that of the first file which
gives it. The options are those settings over the defaults, if both limits are then at
least one. A chain that comes back to a file is an error. What a file extends is seen from
the directory of that file, and files have one identity when they stand at one place. -/
theorem load_folds_chain (t : FileTree) (path : Path) :
    (∃! r, Loads t [] path r) ∧ Loads t [] path (OptionsFile.load t path) ∧
    ((∃ file, OptionsFile.load t path = .ok file) ↔
      ∃ links, Chain t path links ∧ (identities t links).Nodup) ∧
    (∀ links file, Chain t path links → OptionsFile.load t path = .ok file →
      Inherits (links.map Link.file) file) ∧
    (∀ o, Options.load t path = .ok o ↔ ∃ links, Chain t path links ∧
      (identities t links).Nodup ∧ o = settled (links.map Link.file) ∧ Admissible o) ∧
    (∀ links last, Leads t path links last → identity t last ∈ identities t links →
      ∃ q, OptionsFile.load t path = .error (.cycle q)) ∧
    (∀ q file next, readLink t q = .ok (file, next) ↔ readFrom t q = .ok file ∧
      ∃ directory, q.parent? = some directory ∧
        next = file.extended.map (extendedFrom directory)) ∧
    (∀ q q' file file', readFrom t q = .ok file → readFrom t q' = .ok file' →
      (identity t q = identity t q' ↔ t.locate? q = t.locate? q')) := by
  have hload : Loads t [] path (OptionsFile.load t path) := load_eq_iff.1 rfl
  refine ⟨⟨_, hload, fun r hr => hr.unique hload⟩, hload, exists_load_iff,
    fun links file hchain h => inherits_of_load hchain h, fun o => ?_,
    fun links last h hlast => h.cycle (.inr hlast) hload, fun q file next => readLink_eq_ok_iff,
    fun q q' file file' h h' => identity_eq_iff h h'⟩
  rw [Options.load_eq_ok_iff]
  constructor
  · rintro ⟨file, h, ho⟩
    obtain ⟨links, hchain, hnodup⟩ := exists_load_iff.1 ⟨file, h⟩
    exact ⟨links, hchain, hnodup, (resolve_eq_ok_iff (inherits_of_load hchain h)).1 ho⟩
  · rintro ⟨links, hchain, hnodup, ho⟩
    obtain ⟨file, h⟩ := exists_load_iff.2 ⟨links, hchain, hnodup⟩
    exact ⟨file, h, (resolve_eq_ok_iff (inherits_of_load hchain h)).2 ho⟩

/-- Three files, each of which extends the next from its own directory, and two that
extend each other. -/
def FileTree.layered : FileTree :=
  let write (t : FileTree) (path text : String) := t.write path.toList text.toUTF8
  let t : FileTree := { working := [['w']] }
  let t := t.makeDirectory "/w/sub".toList
  let t := write t "top.json"
    "\x7b\"extends\": \"sub/mid\", \"inferenceOptions\": \x7b\"maxInferenceDepth\": 3\x7d\x7d"
  let t := write t "sub/mid.json"
    "\x7b\"extends\": \"../base\", \"inferenceOptions\": \x7b\"maxInferenceDepth\": 0\x7d\x7d"
  let t := write t "base.json"
    "\x7b\"inferenceOptions\": \x7b\"eagerBuiltinCalls\": \"off\"\x7d\x7d"
  let t := write t "ping.json" "\x7b\"extends\": \"./sub/../pong\"\x7d"
  write t "pong.json" "\x7b\"extends\": \"/w/ping.json\"\x7d"

open OptionsFile in
/-- The limit of the first file stands before the one that would not be admissible, and
the way back to a file is found although it is spelled in another way. -/
theorem load_folds_chain_layered :
    let t := FileTree.layered
    let top : Link := ⟨"top.json".toList, some "sub/mid", some { maxInferenceDepth := some 3 }⟩
    let mid : Link :=
      ⟨"sub/mid.json".toList, some "../base", some { maxInferenceDepth := some 0 }⟩
    let base : Link :=
      ⟨"sub/../base.json".toList, none, some { eagerBuiltinCalls := some false }⟩
    let ping : Link := ⟨"ping.json".toList, some "./sub/../pong", none⟩
    let pong : Link := ⟨"./sub/../pong.json".toList, some "/w/ping.json", none⟩
    Chain t top.path [top, mid, base] ∧ (identities t [top, mid, base]).Nodup ∧
      Admissible (settled [top.file, mid.file, base.file]) ∧
      Options.load t top.path = .ok { eagerBuiltinCalls := false, maxInferenceDepth := 3 } ∧
      Leads t ping.path [ping, pong] "/w/ping.json".toList ∧
      identity t "/w/ping.json".toList ∈ identities t [ping, pong] ∧
      ∃ q, OptionsFile.load t ping.path = .error (.cycle q) := by
  intro t top mid base ping pong
  have hbase : Chain t base.path [base] := .last (by decide +kernel)
  have hmid : Chain t mid.path [mid, base] := .extending (by decide +kernel) hbase
  have hchain : Chain t top.path [top, mid, base] := .extending (by decide +kernel) hmid
  have hnodup : (identities t [top, mid, base]).Nodup := by decide +kernel
  have hadmissible : Admissible (settled [top.file, mid.file, base.file]) := by
    constructor <;> decide
  have hpong : Leads t pong.path [pong] "/w/ping.json".toList :=
    .extending (by decide +kernel) (.here _)
  have hleads : Leads t ping.path [ping, pong] "/w/ping.json".toList :=
    .extending (by decide +kernel) hpong
  have hback : identity t "/w/ping.json".toList ∈ identities t [ping, pong] := by decide +kernel
  obtain ⟨_, _, _, _, hoptions, _⟩ := load_folds_chain t top.path
  obtain ⟨_, _, _, _, _, hcycle, _⟩ := load_folds_chain t ping.path
  exact ⟨hchain, hnodup, hadmissible,
    (hoptions _).2 ⟨_, hchain, hnodup, by decide, by constructor <;> decide⟩, hleads, hback,
    hcycle _ _ hleads hback⟩

end ObjectInference
