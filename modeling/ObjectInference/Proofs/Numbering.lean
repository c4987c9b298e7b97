import ObjectInference.Proofs.Interning
import ObjectInference.Table

/-!
The numbers of texts.

An interner is asked for one thing after the other, and all that it answers can be told from the
texts that it has met, the empty one first of all: the number of a text is its place among the
different ones in the order in which they first came. What was looked up in between does not
matter, and the common texts are met like any others, whenever they are interned.

An interner finds a text by searching its sequence. `Indexed` keeps a table of the numbers
beside the sequence, finds texts by the table alone, and has thirty-two bits for a number.
`Indexed.Represents` says that the table has the numbers that the search would find. Both sides
add a new text alike, so this lasts for as long as the texts do not outnumber the numbers.
-/

namespace ObjectInference

namespace Interner

/-- Something that an interner is asked for. Any number of thirty-two bits may be resolved. -/
inductive Request where
  | intern (text : String)
  | find (text : String)
  | resolve (a : UInt32)
  | internCommon
deriving DecidableEq, Repr

inductive Answer where
  | atom (a : Atom)
  | found (a : Option Atom)
  | text (text : String)
  | done
deriving DecidableEq, Repr

namespace Request

def texts : Request → List String
  | intern text => [text]
  | find _ => []
  | resolve _ => []
  | internCommon => commonTexts

def isLookup : Request → Bool
  | find _ => true
  | resolve _ => true
  | _ => false

end Request

def ask (t : Interner) : Request → Answer × Interner
  | .intern text => (.atom (t.intern text).1, (t.intern text).2)
  | .find text => (.found (t.find? text), t)
  | .resolve a => (.text (t.resolve a.toNat), t)
  | .internCommon => (.done, t.internCommon)

def after (requests : List Request) : Interner :=
  requests.foldl (fun t r => (t.ask r).2) new

/-- All texts met, as often as they were, of which the empty one was there from the start. -/
def met (requests : List Request) : List String :=
  "" :: requests.flatMap Request.texts

/-! ### What is handed out -/

/-- Texts that are interned one by one, each with the number that it gets. -/
def numbered (t : Interner) : List String → List (String × Atom)
  | [] => []
  | text :: texts => (text, (t.intern text).1) :: (t.intern text).2.numbered texts

/-- The numbers that requests hand out and for which texts, oldest first. -/
def handOut (t : Interner) : List Request → List (String × Atom)
  | [] => []
  | r :: requests => t.numbered r.texts ++ (t.ask r).2.handOut requests

/-- The numbers handed out and for which texts, where zero went to the empty text. -/
def handedOut (requests : List Request) : List (String × Atom) :=
  ("", 0) :: new.handOut requests

def due (texts : List String) : Request → Answer
  | .intern text => .atom ((texts ++ [text]).eraseDups.idxOf text)
  | .find text => .found (texts.eraseDups.idxOf? text)
  | .resolve a => .text ((texts.eraseDups[a.toNat]?).getD "")
  | .internCommon => .done

section

variable {requests : List Request} {text : String} {a : Atom}

theorem ask_snd (t : Interner) (r : Request) : (t.ask r).2 = t.internAll r.texts := by
  cases r <;> rfl

/-- The texts met are all that is kept. -/
theorem after_eq (requests : List Request) :
    after requests = new.internAll (requests.flatMap Request.texts) := by
  unfold after internAll
  rw [List.foldl_flatMap]
  congr 1
  funext t r
  exact t.ask_snd r

theorem texts_after (requests : List Request) :
    (after requests).texts.toList = (met requests).eraseDups := by
  rw [after_eq]
  exact toList_internAll_new _

theorem distinct_after (requests : List Request) : (after requests).Distinct := by
  rw [after_eq]
  exact distinct_new.internAll _

theorem after_append (requests more : List Request) :
    after (requests ++ more) = (after requests).internAll (more.flatMap Request.texts) := by
  rw [after_eq, after_eq, List.flatMap_append, internAll_append]

theorem extends_after (requests more : List Request) :
    (after requests).Extends (after (requests ++ more)) := by
  rw [after_append]
  exact extends_internAll _ _

/-- Requests that look something up might as well not have been made. -/
theorem after_filter (requests : List Request) :
    after (requests.filter fun r => !r.isLookup) = after requests := by
  rw [after_eq, after_eq]
  congr 1
  induction requests with
  | nil => rfl
  | cons r requests ih =>
      cases r with
      | intern text => exact congrArg (text :: ·) ih
      | find text => exact ih
      | resolve a => exact ih
      | internCommon => exact congrArg (commonTexts ++ ·) ih

/-- A number that is handed out is the one that the text has ever after. -/
theorem numbered_eq (t : Interner) (texts : List String) :
    t.numbered texts = texts.map fun text => (text, (t.internAll texts).number text) := by
  induction texts generalizing t with
  | nil => rfl
  | cons text texts ih =>
      have hlater : (t.intern text).2.Extends (t.internAll (text :: texts)) :=
        extends_internAll _ texts
      have hnumber : (t.internAll (text :: texts)).number text = (t.intern text).1 :=
        hlater.number_eq
      rw [List.map_cons, hnumber, numbered, ih]
      rfl

theorem numbered_append (t : Interner) (texts texts' : List String) :
    t.numbered (texts ++ texts') = t.numbered texts ++ (t.internAll texts).numbered texts' := by
  induction texts generalizing t with
  | nil => rfl
  | cons text texts ih => exact congrArg (_ :: ·) (ih (t.intern text).2)

theorem handOut_eq (t : Interner) (requests : List Request) :
    t.handOut requests = t.numbered (requests.flatMap Request.texts) := by
  induction requests generalizing t with
  | nil => rfl
  | cons r requests ih => rw [handOut, ih, ask_snd, List.flatMap_cons, numbered_append]

theorem handedOut_eq (requests : List Request) :
    handedOut requests = (met requests).map fun text => (text, (after requests).number text) := by
  have hempty : (after requests).number "" = 0 := by
    rw [number_eq_idxOf, texts_after, met, List.eraseDups_cons, List.idxOf_cons_self]
  rw [handedOut, handOut_eq, numbered_eq, ← after_eq, met, List.map_cons, hempty]

/-- A text is looked up as the number that was handed out for it, and as nothing before. -/
theorem find?_after : (after requests).find? text = some a ↔ (text, a) ∈ handedOut requests := by
  have hmem : ((after requests).find? text).isSome ↔ text ∈ met requests := by
    rw [isSome_find?, ← Array.mem_toList_iff, texts_after, List.mem_eraseDups]
  have hhanded : (text, a) ∈ handedOut requests ↔
      text ∈ met requests ∧ (after requests).number text = a := by
    rw [handedOut_eq, List.mem_map]
    simp
  rw [hhanded]
  refine ⟨fun h => ⟨hmem.1 (by rw [h]; rfl), number_eq h⟩, fun ⟨htext, hnumber⟩ => ?_⟩
  obtain ⟨b, hb⟩ := Option.isSome_iff_exists.1 (hmem.2 htext)
  rw [hb, ← hnumber, number_eq hb]

/-- Every request gets the answer that is due. -/
theorem ask_after (requests : List Request) (r : Request) :
    ((after requests).ask r).1 = due (met requests) r := by
  cases r with
  | intern text =>
      have hlast : ((after requests).intern text).2.texts.toList =
          (met requests ++ [text]).eraseDups := by
        rw [toList_intern, eraseDups_concat, texts_after]
        simp only [List.mem_eraseDups]
      have hnumber : ((after requests).intern text).2.number text = (after requests).number text :=
        Extends.number_eq (.refl _)
      rw [due, ← hlast, ← number_eq_idxOf, hnumber]
      rfl
  | find text =>
      rw [due, ← texts_after, ← find?_eq_idxOf?]
      rfl
  | resolve a =>
      rw [due, ← texts_after, Array.getElem?_toList]
      rfl
  | internCommon => rfl

end

/-! ### An index beside the texts -/

/-- The texts met so far with an index of their numbers beside them. -/
structure Indexed where
  index : Table String UInt32
  texts : Array String
deriving DecidableEq, Repr

namespace Indexed

def new : Indexed := ⟨Table.empty.insert "" 0, #[""]⟩

def find? (x : Indexed) (text : String) : Option UInt32 :=
  x.index.get? text

def resolve (x : Indexed) (a : UInt32) : String :=
  (x.texts[a.toNat]?).getD ""

/-- The number of a text, which is cut to thirty-two bits when it is first given. -/
def intern (x : Indexed) (text : String) : UInt32 × Indexed :=
  match x.find? text with
  | some a => (a, x)
  | none =>
    (.ofNat x.texts.size, ⟨x.index.insert text (.ofNat x.texts.size), x.texts.push text⟩)

def internAll (x : Indexed) (texts : List String) : Indexed :=
  texts.foldl (fun x text => (x.intern text).2) x

def internCommon (x : Indexed) : Indexed :=
  x.internAll commonTexts

def ask (x : Indexed) : Request → Answer × Indexed
  | .intern text => (.atom (x.intern text).1.toNat, (x.intern text).2)
  | .find text => (.found ((x.find? text).map UInt32.toNat), x)
  | .resolve a => (.text (x.resolve a), x)
  | .internCommon => (.done, x.internCommon)

def after (requests : List Request) : Indexed :=
  requests.foldl (fun x r => (x.ask r).2) new

/-- The texts are the same, and the index has the number of each. -/
structure Represents (x : Indexed) (t : Interner) : Prop where
  texts : x.texts = t.texts
  index : ∀ text, (x.find? text).map UInt32.toNat = t.find? text

namespace Represents

variable {x : Indexed} {t : Interner}

theorem of_new : Represents new Interner.new := by
  refine ⟨rfl, fun text => ?_⟩
  rw [find?, new, Table.get?_insert, Table.get?_empty, Interner.find?, Interner.new]
  by_cases htext : "" = text <;> simp [htext]

/-- A new text gets the same number on both sides, if the number has thirty-two bits. -/
theorem intern (h : x.Represents t) {text : String}
    (hfits : (t.intern text).2.size ≤ UInt32.size) :
    (x.intern text).1.toNat = (t.intern text).1 ∧
      (x.intern text).2.Represents (t.intern text).2 := by
  have hindex := h.index text
  cases hx : x.find? text with
  | some a =>
      rw [hx, Option.map_some] at hindex
      have hleft : x.intern text = (a, x) := by rw [Indexed.intern, hx]
      have hright : t.intern text = (a.toNat, t) := by rw [Interner.intern, ← hindex]
      rw [hleft, hright]
      exact ⟨rfl, h⟩
  | none =>
      rw [hx, Option.map_none] at hindex
      have hleft : x.intern text = (.ofNat x.texts.size,
          ⟨x.index.insert text (.ofNat x.texts.size), x.texts.push text⟩) := by
        rw [Indexed.intern, hx]
      have hright : t.intern text = (t.size, ⟨t.texts.push text⟩) := by
        rw [Interner.intern, ← hindex]
      have hlt : t.size < UInt32.size := by
        rw [hright, size, Array.size_push] at hfits
        exact hfits
      have hnumber : (UInt32.ofNat x.texts.size).toNat = t.size := by
        rw [h.texts]
        exact UInt32.toNat_ofNat_of_lt' hlt
      rw [hleft]
      refine ⟨by rw [hright]; exact hnumber, by rw [hright, h.texts], fun text' => ?_⟩
      rw [Indexed.find?, Table.get?_insert]
      by_cases htext : text = text'
      · rw [if_pos htext, Option.map_some, hnumber, ← htext, find?_intern, number, hright]
      · rw [if_neg htext, find?_intern_of_ne t htext]
        exact h.index text'

theorem internAll (h : x.Represents t) {texts : List String}
    (hfits : (t.internAll texts).size ≤ UInt32.size) :
    (x.internAll texts).Represents (t.internAll texts) := by
  induction texts generalizing x t with
  | nil => exact h
  | cons text texts ih =>
      have hle : (t.intern text).2.size ≤ (t.internAll (text :: texts)).size :=
        (extends_internAll _ texts).size_le
      exact ih (h.intern (Nat.le_trans hle hfits)).2 hfits

theorem ask (h : x.Represents t) {r : Request}
    (hfits : (t.internAll r.texts).size ≤ UInt32.size) : (x.ask r).1 = (t.ask r).1 := by
  cases r with
  | intern text => exact congrArg Answer.atom (h.intern hfits).1
  | find text => exact congrArg Answer.found (h.index text)
  | resolve a =>
      refine congrArg Answer.text ?_
      rw [Indexed.resolve, Interner.resolve, h.texts]
  | internCommon => rfl

/-- The index is the texts seen from the other side. -/
theorem find?_eq_some_iff (h : x.Represents t) (ht : t.Distinct) {text : String} {a : UInt32} :
    x.find? text = some a ↔ x.texts[a.toNat]? = some text := by
  have hfind : x.find? text = some a ↔ t.find? text = some a.toNat := by
    rw [← h.index, Option.map_eq_some_iff]
    simp [UInt32.toNat_inj]
  rw [hfind, ht.find?_eq_some_iff, h.texts, Array.getElem?_eq_some_iff]
  refine exists_prop.symm.trans (exists_congr fun hlt => ?_)
  rw [Interner.resolve, Array.getElem?_eq_getElem hlt, Option.getD_some]

end Represents

theorem ask_snd (x : Indexed) (r : Request) : (x.ask r).2 = x.internAll r.texts := by
  cases r with
  | intern text => rfl
  | find text => rfl
  | resolve a => rfl
  -- By name, since comparing the two by computation would intern the common texts.
  | internCommon => simp only [ask, internCommon, Request.texts]

theorem after_eq (requests : List Request) :
    after requests = new.internAll (requests.flatMap Request.texts) := by
  unfold after internAll
  rw [List.foldl_flatMap]
  congr 1
  funext x r
  exact x.ask_snd r

/-- Both sides stay together through all requests, while numbers have thirty-two bits. -/
theorem represents_after {requests : List Request}
    (hfits : (Interner.after requests).size ≤ UInt32.size) :
    (after requests).Represents (Interner.after requests) := by
  rw [Interner.after_eq] at hfits ⊢
  rw [after_eq]
  exact Represents.of_new.internAll hfits

end Indexed

/-! ### Texts and numbers -/

/-- What holds of an interner and the numbers that it has handed out, for the requests made. -/
structure Faithful (requests : List Request) : Prop where
  /-- A text gets its place among the different texts in the order in which they first came. -/
  ordered : handedOut requests =
    (met requests).map fun text => (text, (met requests).eraseDups.idxOf text)
  size : (after requests).size = (met requests).eraseDups.length
  /-- There are no gaps. -/
  dense : ∀ a, a < (after requests).size ↔ a ∈ (handedOut requests).map Prod.snd
  /-- Every next request gets the answer that is due. -/
  answered : ∀ r, ((after requests).ask r).1 = due (met requests) r
  /-- A text that is interned next can be had back, and is found. -/
  interned : ∀ text,
    ((after requests).intern text).2.resolve ((after requests).intern text).1 = text ∧
      ((after requests).intern text).2.find? text = some ((after requests).intern text).1
  /-- A text is found as a number if and only if that number was handed out for it. -/
  found : ∀ text a, (after requests).find? text = some a ↔ (text, a) ∈ handedOut requests
  /-- Finding a number and resolving it undo each other. -/
  inverse : ∀ text a, (after requests).find? text = some a ↔
    a < (after requests).size ∧ (after requests).resolve a = text
  /-- Texts have the same number if and only if they are the same. -/
  same : ∀ text a text' a', (text, a) ∈ handedOut requests → (text', a') ∈ handedOut requests →
    (a = a' ↔ text = text')
  /-- Whatever is asked for later, a number stands for the text for which it was handed out. -/
  kept : ∀ more text a, (text, a) ∈ handedOut requests →
    (after (requests ++ more)).resolve a = text ∧ (after (requests ++ more)).find? text = some a
  /-- Looking something up changes nothing. -/
  lookup : ∀ r, r.isLookup = true → ((after requests).ask r).2 = after requests
  /-- All that was looked up might as well not have been. -/
  lookups : after (requests.filter fun r => !r.isLookup) = after requests

theorem faithful (requests : List Request) : Faithful requests where
  ordered := by
    rw [handedOut_eq]
    simp only [number_eq_idxOf, texts_after]
  size := congrArg List.length (texts_after requests)
  dense a := by
    rw [List.mem_map]
    constructor
    · intro ha
      exact ⟨(_, a), find?_after.1 ((distinct_after requests).find?_eq_some_iff.2 ⟨ha, rfl⟩), rfl⟩
    · rintro ⟨⟨text, a⟩, hmem, rfl⟩
      exact lt_size_of_find? (find?_after.2 hmem)
  answered := ask_after requests
  interned text := by
    have hfind := (after requests).find?_intern text
    exact ⟨resolve_of_find? hfind, hfind⟩
  found _ _ := find?_after
  inverse _ _ := (distinct_after requests).find?_eq_some_iff
  same text a text' a' h h' := by
    have hfind := find?_after.2 h
    have hfind' := find?_after.2 h'
    constructor
    · rintro rfl
      rw [← resolve_of_find? hfind, resolve_of_find? hfind']
    · rintro rfl
      exact Option.some.inj (hfind.symm.trans hfind')
  kept more text a h := by
    have hfind := (extends_after requests more).find? (find?_after.2 h)
    exact ⟨resolve_of_find? hfind, hfind⟩
  lookup r h := by
    cases r with
    | find text => rfl
    | resolve a => rfl
    | intern text => cases h
    | internCommon => cases h
  lookups := after_filter requests

/-- An interner that is asked for anything in any order numbers the different texts by their first
arrival, each once and for good. If thirty-two bits can tell all of them apart, the empty one
included, then an index beside the texts gives the same answers all along, and index and texts
stay inverse to each other. -/
theorem texts_numbered_for_good (requests : List Request)
    (h : (met requests).eraseDups.length ≤ UInt32.size) :
    Faithful requests ∧
    (∀ before r later, requests = before ++ r :: later →
      ((Indexed.after before).ask r).1 = ((after before).ask r).1) ∧
    (Indexed.after requests).Represents (after requests) ∧
    ∀ text a, (Indexed.after requests).find? text = some a ↔
      (Indexed.after requests).texts[a.toNat]? = some text := by
  have hsize (before later : List Request) (heq : requests = before ++ later) :
      (after before).size ≤ UInt32.size := by
    refine Nat.le_trans ((extends_after before later).size_le) ?_
    rw [← heq, (faithful requests).size]
    exact h
  have hrepresents := Indexed.represents_after (hsize requests [] (List.append_nil _).symm)
  refine ⟨faithful requests, fun before r later heq => ?_, hrepresents, fun text a =>
    hrepresents.find?_eq_some_iff (distinct_after requests)⟩
  refine (Indexed.represents_after (hsize before _ heq)).ask ?_
  have hnext : (after before).internAll r.texts = after (before ++ [r]) := by
    rw [after_append, List.flatMap_singleton]
  rw [hnext]
  exact hsize (before ++ [r]) later (by rw [heq, List.append_assoc, List.singleton_append])

/-- Texts of a program before the common ones, among them and behind them. -/
def spelling : List Request :=
  [.intern "greet", .find "self", .intern "self", .internCommon, .intern "args", .resolve 2,
    .intern "", .find "name", .intern "name", .intern "greet", .resolve 40]

theorem texts_numbered_for_good_spelling :
    (met spelling).eraseDups.length ≤ UInt32.size ∧ Faithful spelling ∧
    (∀ before r later, spelling = before ++ r :: later →
      ((Indexed.after before).ask r).1 = ((after before).ask r).1) ∧
    (Indexed.after spelling).Represents (after spelling) ∧
    ∀ text a, (Indexed.after spelling).find? text = some a ↔
      (Indexed.after spelling).texts[a.toNat]? = some text := by
  have h : (met spelling).eraseDups.length ≤ UInt32.size := by decide +kernel
  exact ⟨h, texts_numbered_for_good spelling h⟩

example :
    handedOut [.intern "greet", .find "self", .intern "self", .intern "greet", .intern ""] =
      [("", 0), ("greet", 1), ("self", 2), ("greet", 1), ("", 0)] := by
  decide +kernel

end Interner

end ObjectInference
