import CoinMachine.Lib.Transition
import Mathlib.Logic.Function.Basic
/-!
# Read-modify-writes that are not atomic

Clients share the words of a memory. A client has a list of updates to make, each of one word, and an update takes
two moves: the word is loaded, and what the update makes of it is stored. Anybody can move between the two, and the
store puts back the whole word as it was at the load.

* What every update of a word keeps is kept at every moment (`mem_closed`): a store puts back nothing that was not
  in the word before.
* A word that one client only updates ends as if its updates were atomic (`mem_alone`).
* As soon as a second client updates the word, the updates of the first can all be lost (`lost_update`).
-/

namespace Rmw

open Transition

/-- `*addr = upd(*addr);` -/
structure Op (κ V : Type*) where
  addr : κ
  upd : V → V

structure State (ι κ V : Type*) where
  mem : κ → V
  todo : ι → List (Op κ V)
  /-- loaded for the first update of the list, and not stored yet -/
  held : ι → Option V

variable {ι κ V : Type*}

/-- Every list is done. -/
def State.Done (s : State ι κ V) : Prop := ∀ i, s.todo i = []

def State.Quiet (s : State ι κ V) : Prop := ∀ i, s.held i = none

variable [DecidableEq ι] [DecidableEq κ]

def State.load (s : State ι κ V) (i : ι) (op : Op κ V) : State ι κ V :=
  { s with held := Function.update s.held i (some (s.mem op.addr)) }

def State.store (s : State ι κ V) (i : ι) (op : Op κ V) (ops : List (Op κ V)) (v : V) : State ι κ V :=
  ⟨Function.update s.mem op.addr (op.upd v), Function.update s.todo i ops, Function.update s.held i none⟩

/-- Client `i` moves. -/
def step (s : State ι κ V) (i : ι) : Option (State ι κ V) :=
  match s.todo i, s.held i with
  | [], _ => none
  | op :: _, none => some (s.load i op)
  | op :: ops, some v => some (s.store i op ops v)

/-- What the updates of a list make of the word at `a`, one after another. -/
def effect (a : κ) (ops : List (Op κ V)) (v : V) : V :=
  ops.foldl (fun v op => if op.addr = a then op.upd v else v) v

@[simp] theorem effect_nil (a : κ) (v : V) : effect a ([] : List (Op κ V)) v = v := rfl

theorem effect_cons (a : κ) (op : Op κ V) (ops : List (Op κ V)) (v : V) :
    effect a (op :: ops) v = effect a ops (if op.addr = a then op.upd v else v) := rfl

theorem effect_append (a : κ) (ops ops' : List (Op κ V)) (v : V) :
    effect a (ops ++ ops') v = effect a ops' (effect a ops v) := List.foldl_append

variable {s s' : State ι κ V} {i : ι}

theorem step_cases (h : step s i = some s') : ∃ op ops, s.todo i = op :: ops ∧
    (s.held i = none ∧ s' = s.load i op ∨ ∃ v, s.held i = some v ∧ s' = s.store i op ops v) := by
  unfold step at h
  split at h
  · cases h
  · rename_i op ops htodo hheld
    cases h
    exact ⟨op, ops, htodo, Or.inl ⟨hheld, rfl⟩⟩
  · rename_i op ops v htodo hheld
    cases h
    exact ⟨op, ops, htodo, Or.inr ⟨v, hheld, rfl⟩⟩

theorem step_load {op : Op κ V} {ops : List (Op κ V)} (ht : s.todo i = op :: ops) (hh : s.held i = none) :
    step s i = some (s.load i op) := by
  unfold step
  rw [ht, hh]

theorem step_store {op : Op κ V} {ops : List (Op κ V)} {v : V} (ht : s.todo i = op :: ops) (hh : s.held i = some v) :
    step s i = some (s.store i op ops v) := by
  unfold step
  rw [ht, hh]

/-! ## What every update keeps -/

/-- Every update of the word at `a` that is still to come keeps `S`. -/
def State.Keeps (s : State ι κ V) (a : κ) (S : V → Prop) : Prop :=
  ∀ i, ∀ op ∈ s.todo i, op.addr = a → ∀ v, S v → S (op.upd v)

/-- `S` holds of the word at `a` and of every copy of it that is still to be stored. -/
structure Closed (a : κ) (S : V → Prop) (s : State ι κ V) : Prop where
  keeps : s.Keeps a S
  mem : S (s.mem a)
  held : ∀ i op ops v, s.todo i = op :: ops → op.addr = a → s.held i = some v → S v

theorem Closed.step {a : κ} {S : V → Prop} (hc : Closed a S s) (h : step s i = some s') : Closed a S s' := by
  obtain ⟨op, ops, htodo, ⟨-, rfl⟩ | ⟨v, hheld, rfl⟩⟩ := step_cases h
  · refine ⟨hc.keeps, hc.mem, fun j op' ops' v hj ha hv => ?_⟩
    rcases eq_or_ne j i with rfl | hne
    · cases htodo.symm.trans hj
      simp only [State.load, Function.update_self, Option.some.injEq] at hv
      rw [← hv, ha]
      exact hc.mem
    · exact hc.held j op' ops' v hj ha (by simpa [State.load, hne] using hv)
  · have hsub : ∀ j, ∀ op' ∈ (s.store i op ops v).todo j, op' ∈ s.todo j := by
      intro j op' hmem
      rcases eq_or_ne j i with rfl | hne
      · simp only [State.store, Function.update_self] at hmem
        rw [htodo]
        exact List.mem_cons_of_mem _ hmem
      · simpa [State.store, hne] using hmem
    refine ⟨fun j op' hmem => hc.keeps j op' (hsub j op' hmem), ?_, fun j op' ops' v' hj ha hv => ?_⟩
    · by_cases ha : op.addr = a
      · simp only [State.store, ha, Function.update_self]
        exact hc.keeps i op (by rw [htodo]; exact List.mem_cons_self) ha v (hc.held i op ops v htodo ha hheld)
      · simp only [State.store, Function.update_of_ne (Ne.symm ha)]
        exact hc.mem
    · rcases eq_or_ne j i with rfl | hne
      · simp [State.store] at hv
      · exact hc.held j op' ops' v' (by simpa [State.store, hne] using hj) ha (by simpa [State.store, hne] using hv)

/-- The rule for every moment of every interleaving. -/
theorem mem_closed {a : κ} {S : V → Prop} {is : List ι} (h : run step s is = some s') (hq : s.Quiet)
    (hkeeps : s.Keeps a S) (hmem : S (s.mem a)) : S (s'.mem a) := by
  have hc : Closed a S s := ⟨hkeeps, hmem, fun i _ _ _ _ _ hv => by rw [hq i] at hv; cases hv⟩
  exact (run_invariant (fun _ _ _ hc hs => Closed.step hc hs) hc h).mem

theorem effect_closed {a : κ} {S : V → Prop} {ops : List (Op κ V)} :
    (∀ op ∈ ops, op.addr = a → ∀ v, S v → S (op.upd v)) → ∀ {v : V}, S v → S (effect a ops v) := by
  induction ops with
  | nil => exact fun _ _ hv => hv
  | cons op ops ih =>
    intro hops v hv
    rw [effect_cons]
    refine ih (fun op' hmem => hops op' (List.mem_cons_of_mem _ hmem)) ?_
    split
    · rename_i ha
      exact hops op List.mem_cons_self ha v hv
    · exact hv

/-! ## A word with one client -/

/-- Only `d` updates the word at `a`: its copy is never stale, and `w` is what its updates come to. -/
structure Alone (a : κ) (d : ι) (w : V) (s : State ι κ V) : Prop where
  others : ∀ j, j ≠ d → ∀ op ∈ s.todo j, op.addr ≠ a
  fresh : ∀ op ops v, s.todo d = op :: ops → op.addr = a → s.held d = some v → v = s.mem a
  rest : effect a (s.todo d) (s.mem a) = w

theorem Alone.step {a : κ} {d : ι} {w : V} (hl : Alone a d w s) (h : step s i = some s') : Alone a d w s' := by
  obtain ⟨op, ops, htodo, ⟨-, rfl⟩ | ⟨v, hheld, rfl⟩⟩ := step_cases h
  · refine ⟨hl.others, fun op' ops' v hd ha hv => ?_, hl.rest⟩
    rcases eq_or_ne d i with rfl | hne
    · cases htodo.symm.trans hd
      simp only [State.load, Function.update_self, Option.some.injEq] at hv
      rw [← hv, ha]
      rfl
    · exact hl.fresh op' ops' v hd ha (by simpa [State.load, hne] using hv)
  · rcases eq_or_ne i d with rfl | hne
    · refine ⟨fun j hj op' hmem => hl.others j hj op' (by simpa [State.store, hj] using hmem), ?_, ?_⟩
      · intro op' ops' v' _ _ hv
        simp [State.store] at hv
      · rw [← hl.rest, htodo, effect_cons]
        by_cases ha : op.addr = a
        · simp [State.store, ha, hl.fresh op ops v htodo ha hheld]
        · simp [State.store, ha, Function.update_of_ne (Ne.symm ha)]
    · have ha : op.addr ≠ a := hl.others i hne op (by rw [htodo]; exact List.mem_cons_self)
      have hmem : (s.store i op ops v).mem a = s.mem a := Function.update_of_ne (Ne.symm ha) _ _
      have hd : (s.store i op ops v).todo d = s.todo d := Function.update_of_ne (Ne.symm hne) _ _
      have hh : (s.store i op ops v).held d = s.held d := Function.update_of_ne (Ne.symm hne) _ _
      refine ⟨fun j hj op' hop => ?_, ?_, by rw [hmem, hd]; exact hl.rest⟩
      · rcases eq_or_ne j i with rfl | hji
        · refine hl.others j hj op' ?_
          rw [htodo]
          exact List.mem_cons_of_mem _ (by simpa [State.store] using hop)
        · exact hl.others j hj op' (by simpa [State.store, hji] using hop)
      · rw [hmem, hd, hh]
        exact hl.fresh

theorem mem_alone {a : κ} {d : ι} {is : List ι} (h : run step s is = some s') (hq : s.Quiet)
    (hothers : ∀ j, j ≠ d → ∀ op ∈ s.todo j, op.addr ≠ a) (hdone : s'.Done) :
    s'.mem a = effect a (s.todo d) (s.mem a) := by
  have hl : Alone a d (effect a (s.todo d) (s.mem a)) s := by
    refine ⟨hothers, fun _ _ _ _ _ hv => ?_, rfl⟩
    rw [hq d] at hv
    cases hv
  have hl' := run_invariant (fun _ _ _ hl hs => Alone.step hl hs) hl h
  rw [← hl'.rest, hdone d, effect_nil]

/-! ## Lost updates -/

/-- A client that is not interrupted. -/
theorem exists_solo (i : ι) {pre : List (Op κ V)} : ∀ {s : State ι κ V} {post : List (Op κ V)},
    s.todo i = pre ++ post → s.held i = none →
      ∃ is s', run step s is = some s' ∧ s'.todo = Function.update s.todo i post ∧ s'.held = s.held ∧
        ∀ a, s'.mem a = effect a pre (s.mem a) := by
  induction pre with
  | nil =>
    intro s post ht _
    refine ⟨[], s, rfl, ?_, rfl, fun _ => rfl⟩
    rw [show post = s.todo i from ht.symm, Function.update_eq_self]
  | cons op pre ih =>
    intro s post ht hh
    have hload := step_load ht hh
    have hstore : step (s.load i op) i = some ((s.load i op).store i op (pre ++ post) (s.mem op.addr)) :=
      step_store ht (Function.update_self _ _ _)
    obtain ⟨is, s', hrun, htodo, hheld, hmem⟩ :=
      ih (s := (s.load i op).store i op (pre ++ post) (s.mem op.addr)) (Function.update_self _ _ _)
        (Function.update_self _ _ _)
    refine ⟨i :: i :: is, s', run_cons.2 ⟨_, hload, run_cons.2 ⟨_, hstore, hrun⟩⟩, ?_, ?_, fun a => ?_⟩
    · rw [htodo]
      simp [State.store, State.load]
    · rw [hheld]
      simp only [State.store, State.load, Function.update_idem]
      rw [← hh, Function.update_eq_self]
    · rw [hmem, effect_cons]
      by_cases ha : op.addr = a
      · simp [State.store, State.load, ha]
      · simp [State.store, State.load, ha, Function.update_of_ne (Ne.symm ha)]

/-- Everybody comes to an end. -/
theorem exists_finish (L : List ι) : ∀ {s : State ι κ V}, s.Quiet → (∀ i, s.todo i ≠ [] → i ∈ L) →
    ∃ is s', run step s is = some s' ∧ s'.Done := by
  induction L with
  | nil =>
    intro s _ hL
    exact ⟨[], s, rfl, fun i => by_contra fun hne => absurd (hL i hne) List.not_mem_nil⟩
  | cons i L ih =>
    intro s hq hL
    obtain ⟨is, t, hrun, htodo, hheld, -⟩ := exists_solo i (List.append_nil (s.todo i)).symm (hq i)
    have hqt : t.Quiet := fun j => by rw [hheld]; exact hq j
    obtain ⟨js, s', hrun', hdone⟩ := ih hqt fun j hj => by
      rw [htodo] at hj
      rcases eq_or_ne j i with rfl | hne
      · simp at hj
      · exact (List.mem_cons.1 (hL j (by simpa [hne] using hj))).resolve_left hne
    exact ⟨is ++ js, s', run_append.2 ⟨t, hrun, hrun'⟩, hdone⟩

/-- A client gets to one of its updates and loads the word, with the part `f` of it as it was. -/
theorem exists_loaded {φ : Type*} {a : κ} {e : ι} {op : Op κ V} (f : V → φ) (hq : s.Quiet) (hop : op ∈ s.todo e)
    (ha : op.addr = a) (hkeep : ∀ op ∈ s.todo e, op.addr = a → ∀ v, f (op.upd v) = f v) :
    ∃ is t pre post, s.todo e = pre ++ op :: post ∧ run step s is = some t ∧
      t.todo = Function.update s.todo e (op :: post) ∧ t.held = Function.update s.held e (some (t.mem a)) ∧
      f (t.mem a) = f (s.mem a) := by
  obtain ⟨pre, post, hsplit⟩ := List.append_of_mem hop
  obtain ⟨is, t, hrun, htodo, hheld, hmem⟩ := exists_solo e hsplit (hq e)
  have hload : step t e = some (t.load e op) :=
    step_load (by rw [htodo, Function.update_self]) (by rw [hheld]; exact hq e)
  refine ⟨is ++ [e], t.load e op, pre, post, hsplit, run_snoc.2 ⟨t, hrun, hload⟩, htodo, ?_, ?_⟩
  · simp only [State.load, hheld, ha]
  · have hpre : ∀ op' ∈ pre, op'.addr = a → ∀ v, f v = f (s.mem a) → f (op'.upd v) = f (s.mem a) := by
      intro op' hop' ha' v hv
      rw [hkeep op' (by rw [hsplit]; exact List.mem_append_left _ hop') ha', hv]
    simp only [State.load, hmem]
    exact effect_closed (S := fun v => f v = f (s.mem a)) hpre rfl

/-- While a client holds a word, another does all of its updates; then the first stores the word. -/
theorem exists_overwritten {d e : ι} {op : Op κ V} {post : List (Op κ V)} {v : V} (hne : e ≠ d)
    (ht : s.todo e = op :: post) (hh : s.held e = some v) (hd : s.held d = none) :
    ∃ is t, run step s is = some t ∧ t.todo = Function.update (Function.update s.todo d []) e post ∧
      t.held = Function.update s.held e none ∧ t.mem op.addr = op.upd v := by
  obtain ⟨is, t, hrun, htodo, hheld, -⟩ := exists_solo d (List.append_nil (s.todo d)).symm hd
  have hstore : step t e = some (t.store e op post v) :=
    step_store (by rw [htodo, Function.update_of_ne hne, ht]) (by rw [hheld, hh])
  refine ⟨is ++ [e], t.store e op post v, run_snoc.2 ⟨t, hrun, hstore⟩, ?_, ?_, Function.update_self _ _ _⟩
  · simp only [State.store, htodo]
  · simp only [State.store, hheld]

/-- Whatever `d` has to do with the part `f` of the word at `a`, it can be lost: another client loads the word before
`d` begins and stores it after `d` has ended. -/
theorem lost_update {φ : Type*} {a : κ} {d e : ι} {op : Op κ V} (f : V → φ) (L : List ι) (hq : s.Quiet)
    (hL : ∀ i, s.todo i ≠ [] → i ∈ L) (hne : e ≠ d) (hop : op ∈ s.todo e) (ha : op.addr = a)
    (hkeep : ∀ i, i ≠ d → ∀ op ∈ s.todo i, op.addr = a → ∀ v, f (op.upd v) = f v) :
    ∃ is s', run step s is = some s' ∧ s'.Done ∧ f (s'.mem a) = f (s.mem a) := by
  obtain ⟨is, t, pre, post, hsplit, hrun, htodo, hheld, hf⟩ := exists_loaded f hq hop ha (hkeep e hne)
  obtain ⟨js, u, hrun', htodo', hheld', hmem⟩ := exists_overwritten (s := t) hne
    (by rw [htodo, Function.update_self]) (by rw [hheld, Function.update_self])
    (by rw [hheld, Function.update_of_ne (Ne.symm hne)]; exact hq d)
  have hfu : f (u.mem a) = f (s.mem a) := by
    rw [← ha, hmem, hkeep e hne op hop ha, hf, ha]
  have hquiet : u.Quiet := by
    intro i
    rw [hheld', hheld, Function.update_idem]
    simp only [Function.update_apply]
    split
    · rfl
    · exact hq i
  -- what is left is part of what there was, and nothing of it is of `d`
  have hleft : ∀ i, ∀ op' ∈ u.todo i, i ≠ d ∧ op' ∈ s.todo i := by
    intro i op' hop'
    rw [htodo', htodo] at hop'
    simp only [Function.update_apply] at hop'
    split at hop'
    · rename_i hi
      subst hi
      exact ⟨hne, by rw [hsplit]; exact List.mem_append_right _ (List.mem_cons_of_mem _ hop')⟩
    · split at hop'
      · cases hop'
      · exact ⟨‹_›, hop'⟩
  obtain ⟨ks, s', hrun'', hdone⟩ := exists_finish L hquiet fun i hi => by
    obtain ⟨op', hop'⟩ := List.exists_mem_of_ne_nil _ hi
    exact hL i (List.ne_nil_of_mem (hleft i op' hop').2)
  refine ⟨is ++ (js ++ ks), s', run_append.2 ⟨t, hrun, run_append.2 ⟨u, hrun', hrun''⟩⟩, hdone, ?_⟩
  refine mem_closed (S := fun v => f v = f (s.mem a)) hrun'' hquiet (fun i op' hop' ha' v hv => ?_) hfu
  exact (hkeep i (hleft i op' hop').1 op' (hleft i op' hop').2 ha' v).trans hv

end Rmw
