import Mathlib.Data.List.TakeDrop
import ObjectInference.FileTree

/-!
Files and their full paths.

However the path to a file is spelled, it leads to one place, and the full path of
that place tells it from all others: a name is not empty and has no slash in it. A
path that leads to a file has a name that counts, and so a directory that the file
stands in.
-/

namespace ObjectInference

namespace Path

variable {p : Path}

/-! ### Names between slashes -/

theorem not_mem_of_mem_segmentsFrom {before : Nat} {name cs : List Char} (hname : '/' ∉ name)
    {x : List Char × Nat} (hx : x ∈ segmentsFrom before name cs) : '/' ∉ x.1 := by
  induction cs generalizing before name with
  | nil =>
      obtain rfl := List.mem_singleton.1 hx
      simpa using hname
  | cons c cs ih =>
      unfold segmentsFrom at hx
      split at hx
      · rcases List.mem_cons.1 hx with rfl | hx
        · simpa using hname
        · exact ih List.not_mem_nil hx
      · rename_i hc
        refine ih (fun hmem => ?_) hx
        rcases List.mem_cons.1 hmem with rfl | hmem
        · simp at hc
        · exact hname hmem

theorem not_mem_of_mem_segments {name : List Char} (h : name ∈ p.segments.map Prod.fst) :
    '/' ∉ name := by
  obtain ⟨x, hx, rfl⟩ := List.mem_map.1 h
  exact not_mem_of_mem_segmentsFrom List.not_mem_nil hx

/-- What has been read of a name is the beginning of the first one. -/
theorem segmentsFrom_eq_cons (before : Nat) (name cs : List Char) :
    ∃ rest length others,
      segmentsFrom before name cs = (name.reverse ++ rest, length) :: others := by
  induction cs generalizing before name with
  | nil => exact ⟨[], before, [], by simp [segmentsFrom]⟩
  | cons c cs ih =>
      unfold segmentsFrom
      split
      · exact ⟨[], before, segmentsFrom (before + 1) [] cs, by simp⟩
      · obtain ⟨rest, length, others, h⟩ := ih (before + 1) (c :: name)
        exact ⟨c :: rest, length, others, by simp [h]⟩

/-- A path without a name that counts is absolute and stays where it starts. -/
theorem isIdle_of_parts_eq_nil (hp : p ≠ []) (h : p.parts = []) :
    p.isAbsolute = true ∧ ∀ name ∈ p.segments.map Prod.fst, isIdle name = true := by
  obtain ⟨c, cs, rfl⟩ := List.exists_cons_of_ne_nil hp
  by_cases hc : c = '/'
  · subst hc
    have hsegments : segments ('/' :: cs) = ([], 0) :: segmentsFrom 1 [] cs := rfl
    refine ⟨rfl, fun name hname => ?_⟩
    rw [parts, hsegments] at h
    rw [hsegments, List.map_cons, List.mem_cons] at hname
    rcases hname with rfl | hname
    · rfl
    · obtain ⟨x, hx, rfl⟩ := List.mem_map.1 hname
      simpa using List.filter_eq_nil_iff.1 h x hx
  · -- The first name begins with what is no slash.
    obtain ⟨rest, length, others, hsegments⟩ := segmentsFrom_eq_cons 1 [c] cs
    have hfirst : segments (c :: cs) = (c :: rest, length) :: others := by
      rw [segments, segmentsFrom, if_neg (by simpa using hc), hsegments]
      rfl
    simp [parts, hfirst] at h

theorem exists_parent (h : p.parts ≠ []) : ∃ directory, p.parent? = some directory := by
  have hreverse : p.parts.reverse ≠ [] := by simpa using h
  obtain ⟨last, before, hparts⟩ := List.exists_cons_of_ne_nil hreverse
  unfold parent?
  rw [hparts]
  cases before <;> simp

end Path

namespace FileTree

variable {t : FileTree} {place place' a b : Place} {names : List (List Char)} {p q : Path}

/-! ### Full paths -/

/-- Proper names can be told apart when each follows a slash. -/
theorem flatMap_slash_inj (ha : a.Proper) (hb : b.Proper)
    (h : a.flatMap (fun name => '/' :: name) = b.flatMap fun name => '/' :: name) : a = b := by
  induction a generalizing b with
  | nil =>
      cases b with
      | nil => rfl
      | cons m ms => simp at h
  | cons n ns ih =>
      cases b with
      | nil => simp at h
      | cons m ms =>
          -- A name ends where the next slash stands, or at the end.
          have hname : ∀ {n : List Char} {ns : Place}, '/' ∉ n →
              (n ++ ns.flatMap fun name => '/' :: name).takeWhile (· != '/') = n := by
            intro n ns hn
            have hall : ∀ c ∈ n, (c != '/') = true := by
              intro c hc
              exact bne_iff_ne.2 fun h => hn (h ▸ hc)
            rw [List.takeWhile_append_of_pos hall]
            cases ns <;> simp
          obtain ⟨hn, hns⟩ := List.forall_mem_cons.1 ha
          obtain ⟨hm, hms⟩ := List.forall_mem_cons.1 hb
          simp only [List.flatMap_cons, List.cons_append, List.cons.injEq, true_and] at h
          obtain rfl : n = m := by rw [← hname hn.2, h, hname hm.2]
          rw [ih hns hms (List.append_cancel_left h)]

theorem fullPath_inj (ha : a.Proper) (hb : b.Proper) (h : fullPath a = fullPath b) : a = b := by
  have hroot : ∀ {n : List Char} {ns : Place}, n ≠ [] →
      ['/'] ≠ (n :: ns).flatMap fun name => '/' :: name := by
    intro n ns hn
    simp [hn]
  cases a with
  | nil =>
      cases b with
      | nil => rfl
      | cons m ms => exact absurd h (hroot (hb m List.mem_cons_self).1)
  | cons n ns =>
      cases b with
      | nil => exact absurd h.symm (hroot (ha n List.mem_cons_self).1)
      | cons m ms => exact flatMap_slash_inj ha hb h

/-! ### Places that paths lead to -/

theorem proper_of_follow (hplace : place.Proper) (hnames : ∀ name ∈ names, '/' ∉ name)
    (h : t.follow place names = some place') : place'.Proper := by
  induction names generalizing place with
  | nil =>
      obtain rfl := Option.some.inj h
      exact hplace
  | cons name names ih =>
      obtain ⟨hname, hnames⟩ := List.forall_mem_cons.1 hnames
      unfold follow at h
      split at h
      · cases h
      split at h
      · exact ih hplace hnames h
      split at h
      · exact ih (fun n hn => hplace n ((List.dropLast_sublist place).subset hn)) hnames h
      split at h
      · rename_i hidle _ _
        refine ih (fun n hn => ?_) hnames h
        rcases List.mem_append.1 hn with hn | hn
        · exact hplace n hn
        · obtain rfl := List.mem_singleton.1 hn
          exact ⟨fun h => hidle (by simp [h, Path.isIdle]), hname⟩
      · cases h

theorem proper_of_locate? (h : t.locate? p = some place) : place.Proper := by
  unfold locate? at h
  split at h
  · cases h
  refine proper_of_follow ?_ (fun _ => Path.not_mem_of_mem_segments) h
  unfold origin
  split
  · exact fun _ hn => (List.not_mem_nil hn).elim
  · exact t.proper

/-- Names that do not count lead nowhere else. -/
theorem follow_of_isIdle (hnames : ∀ name ∈ names, Path.isIdle name = true)
    (h : t.follow place names = some place') : place' = place := by
  induction names with
  | nil => exact (Option.some.inj h).symm
  | cons name names ih =>
      obtain ⟨hname, hnames⟩ := List.forall_mem_cons.1 hnames
      unfold follow at h
      simp only [hname, if_true] at h
      split at h
      · cases h
      · exact ih hnames h

/-- The places of all files and directories but the root, by their full paths. -/
def paths (t : FileTree) : List Path := t.entries.keys.map fullPath

/-- A path to a file: it leads to a place of the tree, and the file stands in a
directory. -/
theorem of_read? {text : String} (h : t.read? p = some text) :
    ∃ place directory, t.locate? p = some place ∧ place.Proper ∧ fullPath place ∈ t.paths ∧
      p.parent? = some directory := by
  unfold read? at h
  split at h
  · cases h
  split at h
  · rename_i content hentry
    obtain ⟨place, hplace, hentry⟩ := Option.bind_eq_some_iff.1 hentry
    -- The root is no file, so the path has a name that counts.
    have hne : place ≠ [] := by
      rintro rfl
      cases hentry
    obtain ⟨name, names, rfl⟩ := List.exists_cons_of_ne_nil hne
    have hparts : p.parts ≠ [] := by
      intro hparts
      unfold locate? at hplace
      split at hplace
      · cases hplace
      · rename_i hp
        obtain ⟨habsolute, hidle⟩ := Path.isIdle_of_parts_eq_nil (by simpa using hp) hparts
        rw [origin, if_pos habsolute] at hplace
        exact absurd (follow_of_isIdle hidle hplace) hne
    obtain ⟨directory, hdirectory⟩ := Path.exists_parent hparts
    exact ⟨_, directory, hplace, proper_of_locate? hplace,
      List.mem_map.2 ⟨_, Table.mem_keys hentry, rfl⟩, hdirectory⟩
  · cases h

end FileTree

end ObjectInference
