import Mathlib.Algebra.BigOperators.Group.List.Lemmas
import Mathlib.Algebra.GroupWithZero.Nat
import Mathlib.Data.List.DropRight
import ObjectInference.Proofs.Recording

/-!
The log of calls read as one list.

A log groups calls by function, counts them apart, and may be cleared at any time. What it
answers can all be read off the plain list of the calls since it was last cleared,
`CallLog.recorded`. Clearing makes a log the empty one, so only the calls after it have to be
looked at, and for these every question is answered by induction from the last call back.
-/

namespace ObjectInference

/-- A write keeps the keys, and a new key goes behind them. -/
theorem Table.keys_insert {κ α : Type} [DecidableEq κ] (t : Table κ α) (k : κ) (v : α) :
    (t.insert k v).keys = if k ∈ t.keys then t.keys else t.keys ++ [k] := by
  unfold keys insert
  generalize t.entries = entries
  induction entries with
  | nil => rfl
  | cons e es ih =>
      unfold put
      by_cases hk : e.1 = k
      · simp [hk]
      · rw [if_neg hk, List.map_cons, ih]
        by_cases hmem : k ∈ es.map Prod.fst
        · simp [hmem]
        · simp [hmem, Ne.symm hk]

namespace CallLog

inductive Action where
  | record (f : ObjectId) (r : CallRecord)
  | clear
deriving DecidableEq, Repr

def Action.call? : Action → Option (ObjectId × CallRecord)
  | record f r => some (f, r)
  | clear => none

def act (l : CallLog) : Action → CallLog
  | .record f r => l.record f r
  | .clear => l.clear

/-- The calls recorded since the log was last cleared, or all of them. -/
def recorded (actions : List Action) : List (ObjectId × CallRecord) :=
  (actions.rtakeWhile fun a => a.call?.isSome).filterMap Action.call?

theorem recorded_record (actions : List Action) (f : ObjectId) (r : CallRecord) :
    recorded (actions ++ [.record f r]) = recorded actions ++ [(f, r)] := by
  unfold recorded
  rw [List.rtakeWhile_concat_pos _ _ _ rfl, List.filterMap_append]
  rfl

theorem recorded_clear (actions : List Action) : recorded (actions ++ [.clear]) = [] := by
  unfold recorded
  rw [List.rtakeWhile_concat_neg _ _ _ Bool.false_ne_true]
  rfl

/-- After any actions a log is the one that has seen only the calls since the last clearing. -/
theorem foldl_act (actions : List Action) :
    actions.foldl act .empty = empty.recordAll (recorded actions) := by
  induction actions using List.reverseRecOn with
  | nil => rfl
  | append_singleton actions a ih =>
      rw [List.foldl_append, ih]
      cases a with
      | record f r =>
          rw [recorded_record, recordAll_append]
          rfl
      | clear =>
          rw [recorded_clear]
          rfl

/-! ### What a log without clearings answers -/

variable (entries : List (ObjectId × CallRecord))

theorem functions_record (l : CallLog) (f : ObjectId) (r : CallRecord) :
    (l.record f r).functions =
      if f ∈ l.functions then l.functions else l.functions ++ [f] :=
  l.byFunction.keys_insert f _

theorem size_recordAll (l : CallLog) : (l.recordAll entries).size = l.size + entries.length := by
  induction entries generalizing l with
  | nil => rfl
  | cons e entries ih =>
      have hrest : (l.recordAll (e :: entries)).size = l.size + 1 + entries.length :=
        ih (l.record e.1 e.2)
      rw [hrest, List.length_cons]
      omega

theorem mem_functions_recordAll {f : ObjectId} :
    f ∈ (empty.recordAll entries).functions ↔ f ∈ entries.map Prod.fst := by
  induction entries using List.reverseRecOn with
  | nil => exact Iff.rfl
  | append_singleton entries e ih =>
      have hlast : empty.recordAll (entries ++ [e]) = (empty.recordAll entries).record e.1 e.2 :=
        recordAll_append empty entries [e]
      rw [hlast, functions_record, List.map_append, List.mem_append, ← ih]
      by_cases he : e.1 ∈ (empty.recordAll entries).functions
      · rw [if_pos he]
        refine ⟨.inl, fun h => h.elim id fun hf => ?_⟩
        rwa [List.mem_singleton.1 hf]
      · rw [if_neg he, List.mem_append]
        rfl

/-- The functions stand in the order of their first calls. -/
theorem pairwise_functions_recordAll :
    (empty.recordAll entries).functions.Pairwise fun f g =>
      (entries.map Prod.fst).idxOf f < (entries.map Prod.fst).idxOf g := by
  induction entries using List.reverseRecOn with
  | nil => exact .nil
  | append_singleton entries e ih =>
      have hlast : empty.recordAll (entries ++ [e]) = (empty.recordAll entries).record e.1 e.2 :=
        recordAll_append empty entries [e]
      have hmem {f : ObjectId} := mem_functions_recordAll entries (f := f)
      rw [hlast, functions_record, List.map_append]
      -- The functions called before keep the places of their first calls.
      have hbefore : (empty.recordAll entries).functions.Pairwise fun f g =>
          (entries.map Prod.fst ++ [e].map Prod.fst).idxOf f <
            (entries.map Prod.fst ++ [e].map Prod.fst).idxOf g := by
        refine ih.imp_of_mem fun {f g} hf hg hlt => ?_
        rwa [List.idxOf_append_of_mem (hmem.1 hf), List.idxOf_append_of_mem (hmem.1 hg)]
      by_cases he : e.1 ∈ (empty.recordAll entries).functions
      · rwa [if_pos he]
      · rw [if_neg he]
        refine List.pairwise_append.2 ⟨hbefore, List.pairwise_singleton _ _, fun f hf g hg => ?_⟩
        obtain rfl := List.mem_singleton.1 hg
        rw [List.idxOf_append_of_mem (hmem.1 hf), List.idxOf_append_of_notMem (mt hmem.2 he)]
        exact Nat.lt_of_lt_of_le (List.idxOf_lt_length_iff.2 (hmem.1 hf)) (Nat.le_add_right _ _)

theorem nodup_functions_recordAll : (empty.recordAll entries).functions.Nodup := by
  refine (pairwise_functions_recordAll entries).imp fun {f g} hlt heq => ?_
  exact absurd hlt (heq ▸ Nat.lt_irrefl _)

theorem length_calls_recordAll (f : ObjectId) :
    ((empty.recordAll entries).calls f).length = (entries.map Prod.fst).count f := by
  rw [calls_recordAll, calls_empty, List.nil_append, List.length_map,
    ← List.countP_eq_length_filter, List.count, List.countP_map]
  rfl

/-- The lists of all functions together are as long as the log. -/
theorem sum_length_calls_recordAll :
    ((empty.recordAll entries).functions.map fun f =>
      ((empty.recordAll entries).calls f).length).sum = entries.length := by
  have hperm : (empty.recordAll entries).functions.Perm (entries.map Prod.fst).dedup := by
    refine (List.perm_ext_iff_of_nodup (nodup_functions_recordAll entries)
      (List.nodup_dedup _)).2 fun f => ?_
    rw [mem_functions_recordAll, List.mem_dedup]
  simp only [length_calls_recordAll]
  calc ((empty.recordAll entries).functions.map fun f => (entries.map Prod.fst).count f).sum
      = ((entries.map Prod.fst).dedup.map fun f => (entries.map Prod.fst).count f).sum :=
        (hperm.map _).sum_eq
    _ = (entries.map Prod.fst).length := List.sum_map_count_dedup_eq_length _
    _ = entries.length := List.length_map _

/-- A log after any actions is the list of the calls since it was last cleared, seen by
function. Each function has its own calls in their order, and the latest of them is the last.
The functions stand once each, in the order of their first calls. The count is that of the
list, which the lists of all functions share out among them. -/
theorem log_as_recorded (actions : List Action) :
    let l := actions.foldl act .empty
    let entries := recorded actions
    (∀ f, l.calls f = (entries.filter fun e => e.1 = f).map Prod.snd) ∧
    (∀ f, l.latest f = ((entries.filter fun e => e.1 = f).map Prod.snd).getLast?) ∧
    (∀ f, f ∈ l.functions ↔ f ∈ entries.map Prod.fst) ∧ l.functions.Nodup ∧
    (l.functions.Pairwise fun f g =>
      (entries.map Prod.fst).idxOf f < (entries.map Prod.fst).idxOf g) ∧
    l.size = entries.length ∧ (l.functions.map fun f => (l.calls f).length).sum = l.size ∧
    (l.isEmpty = true ↔ entries = []) := by
  intro l entries
  have hl : l = empty.recordAll entries := foldl_act actions
  have hcalls : ∀ f, l.calls f = (entries.filter fun e => e.1 = f).map Prod.snd := by
    intro f
    rw [hl, calls_recordAll, calls_empty, List.nil_append]
  have hsize : l.size = entries.length := by
    rw [hl, size_recordAll]
    exact Nat.zero_add _
  refine ⟨hcalls, fun f => congrArg List.getLast? (hcalls f), fun f => ?_, ?_, ?_, hsize, ?_, ?_⟩
  · rw [hl, mem_functions_recordAll]
  · rw [hl]
    exact nodup_functions_recordAll entries
  · rw [hl]
    exact pairwise_functions_recordAll entries
  · rw [hsize, hl]
    exact sum_length_calls_recordAll entries
  · rw [isEmpty, decide_eq_true_iff, hsize, List.length_eq_zero_iff]

example :
    let l := [.record 30 [1], .clear, .record 30 [], .record 10 [7], .record 30 [2]].foldl act empty
    l.functions = [30, 10] ∧ l.calls 30 = [[], [2]] ∧ l.latest 30 = some [2] ∧ l.size = 3 := by
  decide

end CallLog

end ObjectInference
