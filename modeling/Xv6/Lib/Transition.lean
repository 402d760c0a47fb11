import Mathlib.Algebra.BigOperators.Group.Finset.Basic
import Mathlib.Tactic

namespace Xv6.Lib.Transition

variable {σ ι π : Type}

inductive Outcome (σ π : Type) where
  | blocked
  | done (s : σ)
  | panic (e : π)

def Outcome.panics [DecidableEq π] (o : Outcome σ π) (e : π) : Bool :=
  match o with
  | .panic e' => e' = e
  | _ => false

theorem Outcome.panics_iff [DecidableEq π] {o : Outcome σ π} {e : π} :
    o.panics e = true ↔ o = .panic e := by
  cases o <;> simp [Outcome.panics]

def Outcome.isDone (o : Outcome σ π) : Bool :=
  match o with
  | .done _ => true
  | _ => false

theorem Outcome.isDone_iff {o : Outcome σ π} : o.isDone = true ↔ ∃ s, o = .done s := by
  cases o <;> simp [Outcome.isDone]

-- as constants, so that a literal of `Fin 2` holds no proof of its own
instance neZeroTwo : NeZero 2 := ⟨by decide⟩

instance neZeroThree : NeZero 3 := ⟨by decide⟩

structure Machine (σ ι π : Type) where
  init : σ → Prop
  next : σ → ι → Outcome σ π

/-- The runs of a machine all of whose steps meet `ok`, with their actions, the latest first. -/
inductive Run (M : Machine σ ι π) (ok : σ → ι → Prop) : List ι → σ → Prop where
  | start {s : σ} (h : M.init s) : Run M ok [] s
  | step {τ : List ι} {s s' : σ} {a : ι} (h : Run M ok τ s) (hok : ok s a)
      (hn : M.next s a = .done s') : Run M ok (a :: τ) s'

def Reachable (M : Machine σ ι π) (ok : σ → ι → Prop) (s : σ) : Prop := ∃ τ, Run M ok τ s

def anyStep : σ → ι → Prop := fun _ _ => True

theorem Run.induct {M : Machine σ ι π} {ok : σ → ι → Prop} {I : List ι → σ → Prop}
    (hinit : ∀ s, M.init s → I [] s)
    (hstep : ∀ τ s a s', I τ s → ok s a → M.next s a = .done s' → I (a :: τ) s')
    {τ : List ι} {s : σ} (h : Run M ok τ s) : I τ s := by
  induction h with
  | start h => exact hinit _ h
  | step _ hok hn ih => exact hstep _ _ _ _ ih hok hn

theorem Reachable.invariant {M : Machine σ ι π} {ok : σ → ι → Prop} {I : σ → Prop}
    (hinit : ∀ s, M.init s → I s)
    (hstep : ∀ s a s', I s → ok s a → M.next s a = .done s' → I s')
    {s : σ} (h : Reachable M ok s) : I s := by
  obtain ⟨τ, h⟩ := h
  exact h.induct (I := fun _ s => I s) hinit (fun _ => hstep)

theorem Run.mono {M : Machine σ ι π} {ok ok' : σ → ι → Prop} (hle : ∀ s a, ok s a → ok' s a)
    {τ : List ι} {s : σ} (h : Run M ok τ s) : Run M ok' τ s := by
  induction h with
  | start h => exact .start h
  | step _ hok hn ih => exact .step ih (hle _ _ hok) hn

/-- The runs of a machine with what an observer of single steps sees of them, the latest first. -/
inductive Observed {ε : Type} (M : Machine σ ι π) (ok : σ → ι → Prop) (see : σ → ι → σ → Option ε) :
    List ε → σ → Prop where
  | start {s : σ} (h : M.init s) : Observed M ok see [] s
  | step {es : List ε} {s s' : σ} {a : ι} (h : Observed M ok see es s) (hok : ok s a)
      (hn : M.next s a = .done s') : Observed M ok see ((see s a s').toList ++ es) s'

theorem Observed.invariant {ε : Type} {M : Machine σ ι π} {ok : σ → ι → Prop}
    {see : σ → ι → σ → Option ε} {I : List ε → σ → Prop} (hinit : ∀ s, M.init s → I [] s)
    (hstep : ∀ es s a s', I es s → ok s a → M.next s a = .done s' →
      I ((see s a s').toList ++ es) s')
    {es : List ε} {s : σ} (h : Observed M ok see es s) : I es s := by
  induction h with
  | start h => exact hinit _ h
  | step _ hok hn ih => exact hstep _ _ _ _ ih hok hn

theorem Run.observed {ε : Type} {M : Machine σ ι π} {ok : σ → ι → Prop}
    (see : σ → ι → σ → Option ε) {τ : List ι} {s : σ} (h : Run M ok τ s) :
    ∃ es, Observed M ok see es s := by
  induction h with
  | start h => exact ⟨[], .start h⟩
  | step _ hok hn ih =>
    obtain ⟨es, ih⟩ := ih
    exact ⟨_, .step ih hok hn⟩

/-- Perform the actions in order from a state, if each of them is possible and meets `ok`. -/
def perform (M : Machine σ ι π) (ok : σ → ι → Bool) (s : σ) : List ι → Option σ
  | [] => some s
  | a :: as =>
    match ok s a, M.next s a with
    | true, .done s' => perform M ok s' as
    | _, _ => none

theorem perform_cons {M : Machine σ ι π} {ok : σ → ι → Bool} {s s' : σ} {a : ι} (as : List ι)
    (hok : ok s a = true) (hn : M.next s a = .done s') :
    perform M ok s (a :: as) = perform M ok s' as := by
  simp only [perform, hok, hn]

theorem Run.perform {M : Machine σ ι π} {ok : σ → ι → Bool} {τ : List ι} {s s' : σ}
    (h : Run M (ok · ·) τ s) {as : List ι} (hp : perform M ok s as = some s') :
    Run M (ok · ·) (as.reverse ++ τ) s' := by
  induction as generalizing τ s with
  | nil => cases hp; exact h
  | cons a as ih =>
    simp only [Transition.perform] at hp
    split at hp
    · next s₁ hok hn =>
      have hr := ih (.step h hok hn) hp
      simpa using hr
    · cases hp

/-- If the actions can be performed from an initial state, the state they lead to is reachable. -/
theorem Reachable.of_perform {M : Machine σ ι π} {ok : σ → ι → Bool} {P : σ → ι → Prop}
    {s : σ} {as : List ι} {Q : σ → Bool} (h : (Transition.perform M ok s as).any Q = true)
    (hi : M.init s) (hP : ∀ s a, ok s a = true → P s a) : ∃ s', Reachable M P s' ∧ Q s' = true := by
  obtain ⟨s', hs, hQ⟩ := (Option.any_eq_true _ _).mp h
  exact ⟨s', ⟨_, ((Run.start hi).perform hs).mono hP⟩, hQ⟩

section Update

variable {P α : Type} [DecidableEq P] [Fintype P]

theorem sum_update {M : Type} [AddCommMonoid M] (f : P → α) (g : α → M) (p : P) (x : α) :
    ∑ q, g (Function.update f p x q) + g (f p) = ∑ q, g (f q) + g x := by
  have hne : ∀ q ∈ Finset.univ.erase p, g (Function.update f p x q) = g (f q) := by
    intro q hq
    rw [Function.update_of_ne (Finset.ne_of_mem_erase hq)]
  rw [← Finset.add_sum_erase _ _ (Finset.mem_univ p),
    ← Finset.add_sum_erase _ (fun q => g (f q)) (Finset.mem_univ p),
    Finset.sum_congr rfl hne, Function.update_self]
  abel

omit [DecidableEq P] in
theorem le_sum (f : P → α) (g : α → Nat) (p : P) : g (f p) ≤ ∑ q, g (f q) :=
  Finset.single_le_sum (f := fun q => g (f q)) (fun _ _ => Nat.zero_le _) (Finset.mem_univ p)

end Update

end Xv6.Lib.Transition
