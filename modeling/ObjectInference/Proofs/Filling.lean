import ObjectInference.Proofs.Arguments

/-!
Which argument goes where.

An argument has a place among the positional or among the named ones, and a parameter has a
place in its list. `Reaches` relates the two. A positional argument reaches the parameter at
its own place, if no special parameter comes before that or stands there. A named argument
reaches the first ordinary parameter of its name, unless a positional argument does so or an
earlier argument has the name too. What is bound to a parameter is the argument that reaches
it, and the unknown object if none does.

Filling is two loops over a mask of open slots. The first one settles a slot by its place
alone, and each turn of the second one keeps what is in a slot. So one slot can be followed
through both loops, whatever happens to the others.
-/

namespace ObjectInference

variable {params : List Param} {param : Param} {a : ResolvedArguments} {name : Atom}
  {i j : Nat}

/-! ### Places -/

def leading (params : List Param) : Nat :=
  (params.takeWhile fun param => !param.isSpecial).length

@[simp] theorem leading_nil : leading [] = 0 := rfl

@[simp] theorem leading_cons (param : Param) (params : List Param) :
    leading (param :: params) = if param.isSpecial then 0 else leading params + 1 := by
  cases h : param.isSpecial <;> simp [leading, h]

/-- None of the leading parameters is special. -/
theorem isSpecial_of_lt_leading (hi : i < leading params) (hp : params[i]? = some param) :
    param.isSpecial = false := by
  induction params generalizing i with
  | nil => simp at hp
  | cons first params ih =>
      cases hs : first.isSpecial with
      | true => simp [hs] at hi
      | false =>
          cases i with
          | zero =>
              obtain rfl : first = param := Option.some.inj hp
              exact hs
          | succ i => exact ih (by simpa [hs] using hi) (by simpa using hp)

/-- The parameter at a place is the first ordinary one of a name. -/
structure FirstNamed (params : List Param) (name : Atom) (i : Nat) : Prop where
  named : ∃ param, params[i]? = some param ∧ param.isSpecial = false ∧ param.name = name
  first : ∀ j < i, ∀ param, params[j]? = some param → param.isSpecial = false → param.name ≠ name

theorem findIdx?_eq_some_iff_firstNamed :
    (params.findIdx? fun param => !param.isSpecial && param.name == name) = some i ↔
      FirstNamed params name i := by
  rw [List.findIdx?_eq_some_iff_getElem]
  constructor
  · rintro ⟨hi, hnamed, hfirst⟩
    refine ⟨⟨params[i], List.getElem?_eq_getElem hi, by simpa using hnamed⟩, ?_⟩
    intro j hj param hp hs hname
    obtain ⟨hlt, rfl⟩ := List.getElem?_eq_some_iff.1 hp
    exact hfirst j hj (by simp [hs, hname])
  · rintro ⟨⟨param, hp, hs, hname⟩, hfirst⟩
    obtain ⟨hlt, rfl⟩ := List.getElem?_eq_some_iff.1 hp
    refine ⟨hlt, by simp [hs, hname], fun j hj hfound => ?_⟩
    obtain ⟨hsj, hnamej⟩ : params[j].isSpecial = false ∧ params[j].name = name := by
      simpa using hfound
    exact hfirst j hj _ (List.getElem?_eq_getElem _) hsj hnamej

namespace FirstNamed

/-- A name leads to one place. -/
theorem place_eq (h : FirstNamed params name i) (h' : FirstNamed params name j) : i = j :=
  Option.some.inj ((findIdx?_eq_some_iff_firstNamed.2 h).symm.trans
    (findIdx?_eq_some_iff_firstNamed.2 h'))

/-- A place has one name. -/
theorem name_eq {name' : Atom} (h : FirstNamed params name i) (h' : FirstNamed params name' i) :
    name = name' := by
  obtain ⟨param, hp, _, rfl⟩ := h.named
  obtain ⟨param', hp', _, rfl⟩ := h'.named
  rw [hp] at hp'
  rw [Option.some.inj hp']

end FirstNamed

inductive ArgumentPlace where
  | positional (i : Nat)
  | keyword (i : Nat)
deriving DecidableEq, Repr

def ResolvedArguments.at? (a : ResolvedArguments) : ArgumentPlace → Option ObjectId
  | .positional i => a.positional[i]?
  | .keyword i => (a.keywords[i]?).map Prod.snd

structure FirstKeyword (a : ResolvedArguments) (k : Atom × ObjectId) (i : Nat) : Prop where
  named : a.keywords[i]? = some k
  first : ∀ j < i, ∀ k' : Atom × ObjectId, a.keywords[j]? = some k' → k'.1 ≠ k.1

theorem FirstKeyword.place_eq {k k' : Atom × ObjectId} (h : FirstKeyword a k i)
    (h' : FirstKeyword a k' j) (hname : k.1 = k'.1) : i = j := by
  rcases Nat.lt_trichotomy i j with hlt | heq | hlt
  · exact absurd hname (h'.first i hlt k h.named)
  · exact heq
  · exact absurd hname.symm (h.first j hlt k' h'.named)

/-- An argument gets to the parameter at a place. -/
inductive Reaches (params : List Param) (a : ResolvedArguments) : ArgumentPlace → Nat → Prop where
  | positional {i : Nat} (hleading : i < leading params) (hi : i < a.positional.length) :
      Reaches params a (.positional i) i
  | keyword {i j : Nat} {k : Atom × ObjectId} (hopen : min (leading params) a.positional.length ≤ i)
      (hnamed : FirstNamed params k.1 i) (hfirst : FirstKeyword a k j) :
      Reaches params a (.keyword j) i

/-! ### One slot through both loops -/

theorem getElem?_fillPositional (hi : i < params.length) (os : List ObjectId) :
    (fillPositional params os)[i]? = some (if i < leading params then os[i]? else none) := by
  have hopen : ∀ {params : List Param} {i : Nat}, i < params.length →
      (params.map fun _ => (none : Option ObjectId))[i]? = some none := by
    intro params i hi
    rw [List.getElem?_map, List.getElem?_eq_getElem hi]
    rfl
  induction params generalizing i os with
  | nil => simp at hi
  | cons first params ih =>
      cases os with
      | nil =>
          rw [fillPositional, hopen hi]
          · simp
          · simp
      | cons o os =>
          unfold fillPositional
          cases hs : first.isSpecial with
          | true => simpa [hs] using hopen hi
          | false =>
              cases i with
              | zero => simp [hs]
              | succ i => simpa [hs] using ih (by simpa using hi) os

/-- A named argument fills the slot that it names, if that is open. -/
theorem getElem?_fillKeyword (params : List Param) (slots : List (Option ObjectId))
    (k : Atom × ObjectId) (i : Nat) :
    (fillKeyword params slots k)[i]? = (slots[i]?).map fun slot => slot.or
      (if (params.findIdx? fun param => !param.isSpecial && param.name == k.1) = some i then
        some k.2 else none) := by
  unfold fillKeyword
  split
  · rename_i j hj
    rw [hj]
    by_cases hji : j = i
    · subst hji
      cases h : slots[j]? with
      | none => simp [h]
      | some slot => cases slot <;> simp [h]
    · simp [hji]
  · rename_i hnone
    simp [hnone]

/-- What the named arguments put into a slot is the first one that names it, if the slot
was open. -/
theorem getElem?_foldl_fillKeyword (params : List Param) (ks : List (Atom × ObjectId))
    (slots : List (Option ObjectId)) (i : Nat) :
    (ks.foldl (fillKeyword params) slots)[i]? = (slots[i]?).map fun slot => slot.or
      ((ks.find? fun k => (params.findIdx? fun param =>
        !param.isSpecial && param.name == k.1) = some i).map Prod.snd) := by
  induction ks generalizing slots with
  | nil => simp
  | cons k ks ih =>
      rw [List.foldl_cons, ih, getElem?_fillKeyword, Option.map_map]
      congr 1
      funext slot
      by_cases hk : (params.findIdx? fun param => !param.isSpecial && param.name == k.1) = some i
      · cases slot <;> simp [hk]
      · simp [hk]

/-- The named argument that fills a slot, if there is one, is the first of its name. -/
theorem find?_named_eq_some_iff {k : Atom × ObjectId} :
    (a.keywords.find? fun k => (params.findIdx? fun param =>
        !param.isSpecial && param.name == k.1) = some i) = some k ↔
      FirstNamed params k.1 i ∧ ∃ j, FirstKeyword a k j := by
  rw [List.find?_eq_some_iff_getElem]
  simp only [decide_eq_true_eq, Bool.not_eq_true', decide_eq_false_iff_not,
    findIdx?_eq_some_iff_firstNamed]
  refine and_congr_right fun hnamed => ?_
  constructor
  · rintro ⟨j, hj, hk, hfirst⟩
    refine ⟨j, hk ▸ List.getElem?_eq_getElem hj, fun j' hlt k' hk' hname => ?_⟩
    obtain ⟨_, rfl⟩ := List.getElem?_eq_some_iff.1 hk'
    exact hfirst j' hlt (hname ▸ hnamed)
  · rintro ⟨j, hk, hfirst⟩
    obtain ⟨hj, hk⟩ := List.getElem?_eq_some_iff.1 hk
    exact ⟨j, hj, hk, fun j' hlt hnamed' => hfirst j' hlt _
      (List.getElem?_eq_getElem (Nat.lt_trans hlt hj)) (hnamed'.name_eq hnamed)⟩

theorem getElem?_bindObjects (hi : i < params.length) (a : ResolvedArguments) :
    (bindObjects params a)[i]? = some
      (((if i < leading params then a.positional[i]? else none).or
        ((a.keywords.find? fun k => (params.findIdx? fun param =>
          !param.isSpecial && param.name == k.1) = some i).map Prod.snd)).getD .unknown) := by
  rw [bindObjects, List.getElem?_map, getElem?_foldl_fillKeyword, getElem?_fillPositional hi]
  rfl

/-! ### What reaches a slot is bound to it -/

namespace Reaches

variable {place place' : ArgumentPlace}

theorem lt_length (h : Reaches params a place i) : i < params.length := by
  cases h with
  | positional hleading _ =>
      exact Nat.lt_of_lt_of_le hleading (List.takeWhile_prefix _).length_le
  | keyword _ hnamed _ =>
      obtain ⟨param, hp, _⟩ := hnamed.named
      exact (List.getElem?_eq_some_iff.1 hp).1

/-- No argument reaches a special parameter. -/
theorem isSpecial_eq_false (h : Reaches params a place i) (hp : params[i]? = some param) :
    param.isSpecial = false := by
  cases h with
  | positional hleading _ => exact isSpecial_of_lt_leading hleading hp
  | keyword _ hnamed _ =>
      obtain ⟨param', hp', hs, _⟩ := hnamed.named
      rw [hp] at hp'
      rw [Option.some.inj hp', hs]

/-- An argument reaches one parameter. -/
theorem slot_eq (h : Reaches params a place i) (h' : Reaches params a place j) : i = j := by
  cases h with
  | positional _ _ =>
      cases h' with
      | positional _ _ => rfl
  | keyword _ hnamed hfirst =>
      cases h' with
      | keyword _ hnamed' hfirst' =>
          have hk := hfirst.named.symm.trans hfirst'.named
          obtain rfl := Option.some.inj hk
          exact hnamed.place_eq hnamed'

/-- A parameter is reached by one argument. -/
theorem place_eq (h : Reaches params a place i) (h' : Reaches params a place' i) :
    place = place' := by
  cases h with
  | positional hleading hi =>
      cases h' with
      | positional _ _ => rfl
      | keyword hopen _ _ => omega
  | keyword hopen hnamed hfirst =>
      cases h' with
      | positional hleading hi => omega
      | keyword _ hnamed' hfirst' =>
          rw [hfirst.place_eq hfirst' (hnamed.name_eq hnamed')]

/-- Past the first special parameter only a name leads. -/
theorem eq_keyword (h : Reaches params a place i) (hi : leading params ≤ i) :
    ∃ j k, place = .keyword j ∧ a.keywords[j]? = some k ∧
      (params[i]?).map Param.name = some k.1 := by
  cases h with
  | positional hleading _ => omega
  | @keyword _ j k _ hnamed hfirst =>
      obtain ⟨param, hp, _, hname⟩ := hnamed.named
      exact ⟨j, k, rfl, hfirst.named, by rw [hp, Option.map_some, hname]⟩

theorem bindObjects_eq (h : Reaches params a place i) :
    (bindObjects params a)[i]? = a.at? place := by
  rw [getElem?_bindObjects h.lt_length]
  cases h with
  | positional hleading hi => simp [hleading, ResolvedArguments.at?, hi]
  | keyword hopen hnamed hfirst =>
      have hnone : (if i < leading params then a.positional[i]? else none) = none := by
        split
        · exact List.getElem?_eq_none (by omega)
        · rfl
      rw [hnone, find?_named_eq_some_iff.2 ⟨hnamed, _, hfirst⟩, ResolvedArguments.at?,
        hfirst.named]
      rfl

end Reaches

/-- What no argument reaches is unknown. -/
theorem bindObjects_of_not_reaches (hi : i < params.length)
    (h : ∀ place, ¬ Reaches params a place i) : (bindObjects params a)[i]? = some .unknown := by
  have hshort : i < leading params → a.positional.length ≤ i :=
    fun hleading => Nat.le_of_not_lt fun hlt => h _ (.positional hleading hlt)
  have hopen : (if i < leading params then a.positional[i]? else none) = none := by
    split
    · exact List.getElem?_eq_none (hshort ‹_›)
    · rfl
  rw [getElem?_bindObjects hi, hopen, Option.none_or]
  cases hfound : a.keywords.find? _ with
  | none => rfl
  | some k =>
      obtain ⟨hnamed, j, hfirst⟩ := find?_named_eq_some_iff.1 hfound
      exact absurd (.keyword (by omega) hnamed hfirst) (h (.keyword j))

theorem exists_reaches_or_unknown (a : ResolvedArguments) (hi : i < params.length) :
    (∃ place, Reaches params a place i ∧ (bindObjects params a)[i]? = a.at? place) ∨
      (∀ place, ¬ Reaches params a place i) ∧ (bindObjects params a)[i]? = some .unknown := by
  by_cases h : ∃ place, Reaches params a place i
  · obtain ⟨place, h⟩ := h
    exact .inl ⟨place, h, h.bindObjects_eq⟩
  · rw [not_exists] at h
    exact .inr ⟨h, bindObjects_of_not_reaches hi h⟩

/-- Arguments that reach no parameter are of no account. -/
theorem bindObjects_congr {b : ResolvedArguments}
    (hr : ∀ place i, Reaches params a place i ↔ Reaches params b place i)
    (hat : ∀ place i, Reaches params a place i → a.at? place = b.at? place) :
    bindObjects params a = bindObjects params b := by
  refine List.ext_getElem? fun i => ?_
  by_cases hi : i < params.length
  · rcases exists_reaches_or_unknown a hi with ⟨place, h, ho⟩ | ⟨hnot, ho⟩
    · rw [ho, hat place i h, ((hr place i).1 h).bindObjects_eq]
    · rw [ho, bindObjects_of_not_reaches hi fun place h => hnot place ((hr place i).2 h)]
  · rw [List.getElem?_eq_none, List.getElem?_eq_none] <;> rw [length_bindObjects] <;> omega

/-- **Reference binding.** There is one object for each parameter, that of the argument which
reaches the parameter or else the unknown object. No argument reaches two parameters, and no
parameter is reached by two arguments. So a named argument never replaces a positional one,
special parameters are unknown, only a name leads past the first special parameter, and a
positional argument that has no leading parameter is dropped, as is whatever else reaches no
parameter. -/
theorem arguments_bound_once (params : List Param) (a : ResolvedArguments) :
    (bindObjects params a).length = params.length ∧
      (∀ i < params.length,
        (∃ place, Reaches params a place i ∧ (bindObjects params a)[i]? = a.at? place) ∨
          (∀ place, ¬ Reaches params a place i) ∧ (bindObjects params a)[i]? = some .unknown) ∧
      (∀ place i j, Reaches params a place i → Reaches params a place j → i = j) ∧
      (∀ place place' i, Reaches params a place i → Reaches params a place' i → place = place') ∧
      (∀ i param, params[i]? = some param → param.isSpecial = true →
        (∀ place, ¬ Reaches params a place i) ∧ (bindObjects params a)[i]? = some .unknown) ∧
      (∀ place i, Reaches params a place i → leading params ≤ i →
        ∃ j k, place = .keyword j ∧ a.keywords[j]? = some k ∧
          (params[i]?).map Param.name = some k.1) ∧
      (∀ j, leading params ≤ j → ∀ i, ¬ Reaches params a (.positional j) i) ∧
      ∀ b : ResolvedArguments, (∀ place i, Reaches params a place i ↔ Reaches params b place i) →
        (∀ place i, Reaches params a place i → a.at? place = b.at? place) →
        bindObjects params a = bindObjects params b := by
  refine ⟨length_bindObjects params a, fun i hi => exists_reaches_or_unknown a hi,
    fun _ _ _ => Reaches.slot_eq, fun _ _ _ => Reaches.place_eq, fun i param hp hs => ?_,
    fun _ _ => Reaches.eq_keyword, fun j hj i h => ?_, fun _ => bindObjects_congr⟩
  · refine ⟨fun place h => ?_, bindObjects_special hp hs a⟩
    rw [h.isSpecial_eq_false hp] at hs
    cases hs
  · cases h with
    | positional hleading _ => omega

/-- Parameters `(a, b, *a, c, b, **d)` called with `(1, 2, 3, b=4, c=5, c=6, a=7, d=8, e=9)`,
the objects being 100 and on. The two surplus arguments and the four names that lead nowhere
are dropped. -/
example :
    bindObjects
        [.ordinary 1, .ordinary 2, ⟨1, .varArgs⟩, .ordinary 3, .ordinary 2, ⟨4, .kwArgs⟩]
        ⟨[101, 102, 103], [(2, 104), (3, 105), (3, 106), (1, 107), (4, 108), (5, 109)]⟩ =
      [101, 102, .unknown, 105, .unknown, .unknown] := by
  decide

end ObjectInference
