import ObjectInference.Analysis.Agenda
import ObjectInference.Proofs.Binding
import ObjectInference.Proofs.Pairing.Depth

/-!
Walks come to an end by themselves.

Several walks are bounded so that they are total: over nested scopes, up the
parents of a scope, over the nodes below a node, over the leaves of a target.
In a well-bound program and on a descending tree none of these bounds is ever
used up. Each lemma says from where on a bound makes no difference.
-/

namespace ObjectInference

namespace Program

variable {p : Program}

theorem scope?_of_size_le {s : ScopeId} (h : p.scopes.size ≤ s) : p.scope? s = none :=
  Array.getElem?_eq_none h

theorem WellBound.scope (hp : p.WellBound) {s : ScopeId} {d : Scope} (h : p.scope? s = some d) :
    d.WellBound p.objects p.scopes.size s :=
  hp.scopes h

/-! ### Down the scopes -/

theorem subtreeWithin_of_size_le {s : ScopeId} (h : p.scopes.size ≤ s) (n : Nat) :
    p.subtreeWithin n s = [] := by
  cases n with
  | zero => rfl
  | succ n => simp only [subtreeWithin, scope?_of_size_le h]

theorem subtreeWithin_eq (hp : p.WellBound) {n m : Nat} {s : ScopeId}
    (hn : p.scopes.size ≤ s + n) (hm : p.scopes.size ≤ s + m) :
    p.subtreeWithin n s = p.subtreeWithin m s := by
  induction n generalizing m s with
  | zero =>
      have hs : p.scopes.size ≤ s := hn
      rw [subtreeWithin_of_size_le hs, subtreeWithin_of_size_le hs]
  | succ n ih =>
      cases m with
      | zero =>
          have hs : p.scopes.size ≤ s := hm
          rw [subtreeWithin_of_size_le hs, subtreeWithin_of_size_le hs]
      | succ m =>
          unfold subtreeWithin
          cases hd : p.scope? s with
          | none => rfl
          | some d =>
              -- Nested scopes come later, so fewer scopes are left below them.
              have hchildren : ∀ c ∈ d.children,
                  p.subtreeWithin n c = p.subtreeWithin m c := by
                intro c hc
                have hsc : @LT.lt Nat _ s c := ((hp.scope hd).children c hc).1
                exact ih (by omega) (by omega)
              simp only [List.flatMap, List.map_congr_left hchildren]

theorem agendaWithin_eq (hp : p.WellBound) (analyzes searches : ObjectId → Bool) {n m : Nat}
    {s : ScopeId} (hn : p.scopes.size ≤ s + n) (hm : p.scopes.size ≤ s + m) (hn₀ : 0 < n)
    (hm₀ : 0 < m) :
    p.agendaWithin analyzes searches n s = p.agendaWithin analyzes searches m s := by
  induction n generalizing m s with
  | zero => exact absurd hn₀ (Nat.lt_irrefl 0)
  | succ n ih =>
      obtain ⟨m, rfl⟩ : ∃ k, m = k + 1 := ⟨m - 1, by omega⟩
      have hchildren : ∀ c ∈ p.nestedScopes s, p.agendaWithin analyzes searches n c =
          p.agendaWithin analyzes searches m c := by
        intro c hc
        unfold nestedScopes at hc
        cases hd : p.scope? s with
        | none => simp [hd] at hc
        | some d =>
            rw [hd] at hc
            have hsc : @LT.lt Nat _ s c := ((hp.scope hd).children c hc).1
            have hc : @LT.lt Nat _ c p.scopes.size := ((hp.scope hd).children c hc).2
            exact ih (by omega) (by omega) (by omega) (by omega)
      unfold agendaWithin
      simp only [List.flatMap, List.map_congr_left hchildren]

/-! ### Up the scopes -/

theorem binderWithin_eq (hp : p.WellBound) (start : ScopeId) (name : Atom) {n m : Nat}
    {s : ScopeId} (hn : s < n) (hm : s < m) :
    p.binderWithin start name n s = p.binderWithin start name m s := by
  induction n generalizing m s with
  | zero => exact absurd hn (Nat.not_lt_zero s)
  | succ n ih =>
      cases m with
      | zero => exact absurd hm (Nat.not_lt_zero s)
      | succ m =>
          unfold binderWithin
          cases hd : p.scope? s with
          | none => rfl
          | some d =>
              simp only
              split
              · rfl
              · cases hparent : d.parent with
                | none => rfl
                | some outer =>
                    -- Outer scopes come earlier, so the number of the scope bounds the way.
                    have houter : outer < s := (hp.scope hd).parent outer hparent
                    exact ih (Nat.lt_of_lt_of_le houter (Nat.lt_succ_iff.1 hn))
                      (Nat.lt_of_lt_of_le houter (Nat.lt_succ_iff.1 hm))

theorem binderWithin_eq_binder? (hp : p.WellBound) (start : ScopeId) (name : Atom) {n : Nat}
    (hn : p.scopes.size ≤ n) : p.binderWithin start name n start = p.binder? start name := by
  by_cases hs : start < p.scopes.size
  · exact binderWithin_eq hp start name (Nat.lt_of_lt_of_le hs hn) hs
  · have hnone : ∀ k, p.binderWithin start name k start = none := by
      intro k
      cases k with
      | zero => rfl
      | succ k => simp only [binderWithin, scope?_of_size_le (Nat.not_lt.1 hs)]
    rw [binder?, hnone, hnone]

/-! ### From objects to their classes -/

/-- An attribute of an object that is no instance. -/
def ownAttribute? (p : Program) (name : Atom) : Object → Option ObjectId
  | .module s => (p.scope? s).bind fun d => d.definedObject? name
  | .cls s => (p.scope? s).bind fun d => d.definedObject? name
  | .builtinClass c => p.builtinMethod? c name
  | _ => none

/-- Instances are followed to their classes and no further. -/
theorem attributeWithin_add_two (p : Program) {st : ObjectStore} {o : ObjectId}
    (ho : ∀ c site, st.get o = .inst c site → st.kind c = .cls) (name : Atom) (n : Nat) :
    p.attributeWithin st name (n + 2) o =
      match st.get o with
      | .inst c _ => p.ownAttribute? name (st.get c)
      | object => p.ownAttribute? name object := by
  cases hget : st.get o with
  | inst c site =>
      have hc := ho c site hget
      unfold ObjectStore.kind at hc
      simp only [attributeWithin, hget]
      cases hcls : st.get c with
      | inst c' site' =>
          rw [hcls] at hc
          cases hc
      | _ => rfl
  | _ => simp only [attributeWithin, hget, ownAttribute?]

theorem attributeWithin_eq (p : Program) {st : ObjectStore}
    (hst : ∀ o c site, st.get o = .inst c site → st.kind c = .cls) (name : Atom) {n m : Nat}
    (hn : 2 ≤ n) (hm : 2 ≤ m) (o : ObjectId) :
    p.attributeWithin st name n o = p.attributeWithin st name m o := by
  obtain ⟨n, rfl⟩ : ∃ k, n = k + 2 := ⟨n - 2, by omega⟩
  obtain ⟨m, rfl⟩ : ∃ k, m = k + 2 := ⟨m - 2, by omega⟩
  rw [p.attributeWithin_add_two (hst o), p.attributeWithin_add_two (hst o)]

/-! ### From generators to their elements -/

/-- Elements come before their generators, so the number of an object bounds the way. -/
theorem describeWithin_eq (p : Program) {st : ObjectStore}
    (hst : ∀ o e, st.get o = .generator e → e < o) {n m : Nat} {o : ObjectId} (hn : o < n)
    (hm : o < m) : p.describeWithin st n o = p.describeWithin st m o := by
  induction n generalizing m o with
  | zero => exact absurd hn (Nat.not_lt_zero o)
  | succ n ih =>
      cases m with
      | zero => exact absurd hm (Nat.not_lt_zero o)
      | succ m =>
          unfold describeWithin
          cases hget : st.get o with
          | generator e =>
              have he := hst o e hget
              have hrest : p.describeWithin st n e = p.describeWithin st m e :=
                ih (Nat.lt_of_lt_of_le he (Nat.lt_succ_iff.1 hn))
                  (Nat.lt_of_lt_of_le he (Nat.lt_succ_iff.1 hm))
              exact congrArg ("generator of " ++ ·) hrest
          | _ => rfl

end Program

/-! ### Down the tree -/

namespace Tree

variable {t : Tree}

theorem sitesWithin_of_size_le {i : NodeId} (h : t.size ≤ i) (n : Nat) :
    t.sitesWithin n i = [] := by
  have hget : t.get? i = none := Array.getElem?_eq_none h
  cases n with
  | zero => rfl
  | succ n => simp [sitesWithin, isDefinition, children, hget]

theorem sitesWithin_eq (ht : t.Descending) {n m : Nat} {i : NodeId} (hn : t.size ≤ i ∨ i < n)
    (hm : t.size ≤ i ∨ i < m) : t.sitesWithin n i = t.sitesWithin m i := by
  induction n generalizing m i with
  | zero =>
      rcases hn with hi | hn
      · rw [sitesWithin_of_size_le hi, sitesWithin_of_size_le hi]
      · exact absurd hn (Nat.not_lt_zero i)
  | succ n ih =>
      rcases hm with hi | hm
      · rw [sitesWithin_of_size_le hi, sitesWithin_of_size_le hi]
      · cases m with
        | zero => exact absurd hm (Nat.not_lt_zero i)
        | succ m =>
            rcases hn with hi | hn
            · rw [sitesWithin_of_size_le hi, sitesWithin_of_size_le hi]
            · have hchildren : ∀ c ∈ t.children i, t.sitesWithin n c = t.sitesWithin m c := by
                intro c hc
                have hlt : t.size ≤ c ∨ c < i :=
                  (Nat.lt_or_ge c t.size).elim (fun h => .inr (ht i c hc h)) .inl
                refine ih (hlt.imp_right fun h => ?_) (hlt.imp_right fun h => ?_)
                · exact Nat.lt_of_lt_of_le h (Nat.lt_succ_iff.1 hn)
                · exact Nat.lt_of_lt_of_le h (Nat.lt_succ_iff.1 hm)
              unfold sitesWithin
              simp only [List.flatMap, List.map_congr_left hchildren]

/-- The elements of a display are lower than the display. -/
theorem height_lt_of_sequence? (ht : t.Descending) {target e : NodeRef} {elements : List NodeRef}
    (hs : t.sequence? target = some elements) (he : e ∈ elements) :
    t.height e < t.height target := by
  unfold sequence? at hs
  split at hs
  · rename_i hn
    obtain rfl := Option.some.inj hs
    exact height_lt ht hn he
  · rename_i hn
    obtain rfl := Option.some.inj hs
    exact height_lt ht hn he
  · cases hs

theorem leavesWithin_eq (ht : t.Descending) {n m : Nat} {target : NodeRef}
    (hn : t.height target ≤ n) (hm : t.height target ≤ m) :
    t.leavesWithin n target = t.leavesWithin m target := by
  induction n generalizing m target with
  | zero => exact absurd (Nat.lt_of_lt_of_le (t.height_pos target) hn) (Nat.lt_irrefl 0)
  | succ n ih =>
      cases m with
      | zero => exact absurd (Nat.lt_of_lt_of_le (t.height_pos target) hm) (Nat.lt_irrefl 0)
      | succ m =>
          unfold leavesWithin
          cases hs : t.sequence? target with
          | none => rfl
          | some elements =>
              have hleaves : ∀ e ∈ elements.zipIdx,
                  t.leavesWithin n e.1 = t.leavesWithin m e.1 := by
                intro e he
                have hlt := height_lt_of_sequence? ht hs (List.fst_mem_of_mem_zipIdx he)
                exact ih (by omega) (by omega)
              simp only [List.flatMap]
              refine congrArg List.flatten (List.map_congr_left fun e he => ?_)
              rw [hleaves e he]

end Tree

end ObjectInference
