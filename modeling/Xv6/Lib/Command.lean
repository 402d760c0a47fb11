import Mathlib.Tactic

namespace Xv6.Lib.Command

/-- A command on a state `σ`: it returns a value, or stops with an error. -/
abbrev Cmd (σ ε α : Type) := StateT σ (Except ε) α

variable {σ ε α β : Type}

section Evaluation

variable {c : Cmd σ ε α} {f : α → Cmd σ ε β} {s s' : σ} {a : α}

theorem bind_of_ok (h : c s = .ok (a, s')) : (c >>= f) s = f a s' := by
  change (c s >>= fun p => f p.1 p.2) = _
  rw [h]
  rfl

theorem bind_of_error {e : ε} (h : c s = .error e) : (c >>= f) s = .error e := by
  change (c s >>= fun p => f p.1 p.2) = _
  rw [h]
  rfl

theorem bind_congr_run {c' : Cmd σ ε α} (h : c s = c' s) : (c >>= f) s = (c' >>= f) s := by
  change (c s >>= fun p => f p.1 p.2) = (c' s >>= fun p => f p.1 p.2)
  rw [h]

@[simp] theorem get_bind (g : σ → Cmd σ ε β) : (MonadState.get >>= g) s = g s s := rfl

@[simp] theorem modify_bind (h : σ → σ) (g : Unit → Cmd σ ε β) :
    (modify h >>= g) s = g () (h s) := rfl

end Evaluation

/-- Run from `s`, the command returns a value and leaves a state that satisfy
`Q`, or stops with an error that satisfies `E`. With `E` everywhere false this is
total correctness, with `E` everywhere true partial correctness. -/
def Meets (c : Cmd σ ε α) (s : σ) (Q : α → σ → Prop) (E : ε → Prop) : Prop :=
  match c s with
  | .ok (a, s') => Q a s'
  | .error e => E e

variable {c : Cmd σ ε α} {s : σ} {Q Q' : α → σ → Prop} {E E' : ε → Prop}

theorem Meets.of_ok (h : Meets c s Q E) {a : α} {s' : σ} (hc : c s = .ok (a, s')) : Q a s' := by
  simpa only [Meets, hc] using h

theorem Meets.ok (h : Meets c s Q E) (hE : ∀ e, ¬E e) : ∃ a s', c s = .ok (a, s') ∧ Q a s' := by
  unfold Meets at h
  split at h
  next a s' hc => exact ⟨a, s', hc, h⟩
  next e hc => exact absurd h (hE e)

theorem Meets.of_eq {a : α} {s' : σ} (hc : c s = .ok (a, s')) (h : Q a s') : Meets c s Q E := by
  simpa only [Meets, hc] using h

theorem Meets.mono (h : Meets c s Q E) (hQ : ∀ a s', Q a s' → Q' a s') (hE : ∀ e, E e → E' e) :
    Meets c s Q' E' := by
  unfold Meets at h ⊢
  split at h
  next a s' hc => exact hQ a s' h
  next e hc => exact hE e h

theorem Meets.any (c : Cmd σ ε α) (s : σ) : Meets c s (fun _ _ => True) (fun _ => True) := by
  unfold Meets
  split <;> trivial

theorem Meets.post (h : Meets c s Q E) (hQ : ∀ a s', Q a s' → Q' a s') : Meets c s Q' E :=
  h.mono hQ fun _ he => he

/-- From `s`, the command `c'` does what `c` does. -/
def Same (c' c : Cmd σ ε α) (s : σ) : Prop :=
  Meets c s (fun a s' => c' s = .ok (a, s')) fun e => c' s = .error e

theorem Same.refl (c : Cmd σ ε α) (s : σ) : Same c c s := by
  unfold Same Meets
  split <;> assumption

theorem Same.eq {c' : Cmd σ ε α} (h : Same c' c s) : c' s = c s := by
  unfold Same Meets at h
  split at h
  next hc => rw [h, hc]
  next hc => rw [h, hc]

theorem Meets.of_run_eq {c' : Cmd σ ε α} (he : c' s = c s) (h : Meets c s Q E) :
    Meets c' s Q E := by
  unfold Meets at h ⊢
  rwa [he]

theorem Meets.pure {a : α} (h : Q a s) : Meets (Pure.pure a) s Q E := h

theorem Meets.throw {e : ε} (h : E e) : Meets (throw e : Cmd σ ε α) s Q E := h

theorem Meets.get {Q : σ → σ → Prop} (h : Q s s) :
    Meets (MonadState.get : Cmd σ ε σ) s Q E := h

theorem Meets.modify {f : σ → σ} {Q : Unit → σ → Prop} (h : Q () (f s)) :
    Meets (modify f : Cmd σ ε Unit) s Q E := h

theorem Meets.bind {f : α → Cmd σ ε β} {Q : β → σ → Prop}
    (h : Meets c s (fun a s' => Meets (f a) s' Q E) E) : Meets (c >>= f) s Q E := by
  unfold Meets at h
  split at h
  next a s' hc => simpa only [Meets, bind_of_ok hc] using h
  next e hc => simpa only [Meets, bind_of_error hc] using h

theorem Meets.seq {f : α → Cmd σ ε β} {R : β → σ → Prop} (h : Meets c s Q E)
    (hf : ∀ a s', Q a s' → Meets (f a) s' R E) : Meets (c >>= f) s R E :=
  Meets.bind (h.post hf)

theorem Meets.forM {xs : List β} {f : β → Cmd σ ε Unit} (I : List β → σ → Prop) (h : I [] s)
    (hstep : ∀ done x rest s, xs = done ++ x :: rest → I done s →
      Meets (f x) s (fun _ s' => I (done ++ [x]) s') E) :
    Meets (xs.forM f) s (fun _ s' => I xs s') E := by
  suffices key : ∀ (done rest : List β) (s : σ), xs = done ++ rest → I done s →
      Meets (rest.forM f) s (fun _ s' => I xs s') E from key [] xs s rfl h
  intro done rest
  induction rest generalizing done with
  | nil =>
    intro s he hI
    apply Meets.pure
    simpa [he] using hI
  | cons x rest ih =>
    intro s he hI
    apply Meets.seq (hstep done x rest s he hI)
    intro _ s' hI'
    exact ih (done ++ [x]) s' (by simpa using he) hI'

def zoom {τ : Type} (part : σ → τ) (put : τ → σ → σ) (c : Cmd τ ε α) : Cmd σ ε α := fun s =>
  match c (part s) with
  | .ok (a, t) => .ok (a, put t s)
  | .error e => .error e

theorem Meets.zoom {τ : Type} {part : σ → τ} {put : τ → σ → σ} {c : Cmd τ ε α}
    (h : Meets c (part s) (fun a t => Q a (put t s)) E) : Meets (zoom part put c) s Q E := by
  unfold Meets at h ⊢
  unfold Command.zoom
  split at h
  next a t hc => simpa only [hc] using h
  next e hc => simpa only [hc] using h

def Keeps {τ : Type} (view : σ → τ) (c : Cmd σ ε α) : Prop :=
  ∀ s, Meets c s (fun _ s' => view s' = view s) (fun _ => True)

section Keeps

variable {τ : Type} {view : σ → τ} {f : α → Cmd σ ε β}

theorem Keeps.pure (a : α) : Keeps view (Pure.pure a : Cmd σ ε α) := fun _ => Meets.pure rfl

theorem Keeps.throw (e : ε) : Keeps view (throw e : Cmd σ ε α) := fun _ => Meets.throw trivial

theorem Keeps.set {g : σ → σ} (h : ∀ s, view (g s) = view s) :
    Keeps view (modify g : Cmd σ ε Unit) :=
  fun s => Meets.modify (h s)

theorem Keeps.get_bind {g : σ → Cmd σ ε β} (h : ∀ s, Keeps view (g s)) :
    Keeps view (MonadState.get >>= g) := by
  intro s
  apply Meets.bind
  exact Meets.get (h s s)

theorem Keeps.bind (hc : Keeps view c) (hf : ∀ a, Keeps view (f a)) : Keeps view (c >>= f) := by
  intro s
  apply (hc s).seq
  intro a s₁ h₁
  exact (hf a s₁).post fun _ s₂ h₂ => h₂.trans h₁

theorem Keeps.set_bind {g : σ → σ} {k : Cmd σ ε β} (hg : ∀ s, view (g s) = view s)
    (hk : Keeps view k) : Keeps view (do modify g; k) :=
  Keeps.bind (Keeps.set hg) fun _ => hk

theorem Keeps.forM {xs : List β} {g : β → Cmd σ ε Unit} (h : ∀ x ∈ xs, Keeps view (g x)) :
    Keeps view (xs.forM g) := by
  induction xs with
  | nil => exact Keeps.pure ()
  | cons x xs ih =>
    exact (h x List.mem_cons_self).bind fun _ => ih fun y hy => h y (List.mem_cons_of_mem x hy)

end Keeps

def Tracks {τ : Type} (view : σ → τ) (c : Cmd σ ε α) (b : τ) (Q : α → τ → Prop) : Prop :=
  ∀ s, view s = b → Meets c s (fun a s' => Q a (view s')) (fun _ => True)

section Tracks

variable {τ : Type} {view : σ → τ} {b : τ} {f : α → Cmd σ ε β} {Q Q' : α → τ → Prop}
  {R : β → τ → Prop}

theorem Keeps.tracks (h : Keeps view c) : Tracks view c b (fun _ b' => b' = b) := by
  rintro s rfl
  exact h s

theorem Tracks.post (h : Tracks view c b Q) (hQ : ∀ a b', Q a b' → Q' a b') :
    Tracks view c b Q' :=
  fun s hs => (h s hs).post fun a s' => hQ a (view s')

theorem Tracks.pure {a : α} (h : Q a b) : Tracks view (Pure.pure a : Cmd σ ε α) b Q := by
  rintro s rfl
  exact Meets.pure h

theorem Tracks.throw (e : ε) : Tracks view (throw e : Cmd σ ε α) b Q :=
  fun _ _ => Meets.throw trivial

theorem Tracks.get_bind {g : σ → Cmd σ ε β} (h : ∀ s, view s = b → Tracks view (g s) b R) :
    Tracks view (MonadState.get >>= g) b R := by
  intro s hs
  apply Meets.bind
  exact Meets.get (h s hs s hs)

theorem Tracks.set {g : σ → σ} {Q : Unit → τ → Prop} (h : ∀ s, view s = b → Q () (view (g s))) :
    Tracks view (modify g : Cmd σ ε Unit) b Q :=
  fun s hs => Meets.modify (h s hs)

theorem Tracks.bind (hc : Tracks view c b Q) (hf : ∀ a b', Q a b' → Tracks view (f a) b' R) :
    Tracks view (c >>= f) b R := by
  intro s hs
  apply (hc s hs).seq
  intro a s₁ h₁
  exact hf a (view s₁) h₁ s₁ rfl

theorem Tracks.keep_bind (hc : Keeps view c) (hf : ∀ a, Tracks view (f a) b R) :
    Tracks view (c >>= f) b R := by
  apply hc.tracks.bind
  rintro a b' rfl
  exact hf a

theorem Tracks.set_bind {g : σ → σ} {k : Cmd σ ε β} {b' : τ} (hg : ∀ s, view s = b → view (g s) = b')
    (hk : Tracks view k b' R) : Tracks view (do modify g; k) b R := by
  intro s hs
  apply Meets.bind
  apply Meets.modify
  exact hk (g s) (hg s hs)

theorem Tracks.set_keep {g : σ → σ} {k : Cmd σ ε β} (hg : ∀ s, view (g s) = view s)
    (hk : Tracks view k b R) : Tracks view (do modify g; k) b R :=
  Tracks.set_bind (fun s hs => (hg s).trans hs) hk

end Tracks

-- the rules above are how a specification is used; unfolding it would run the command
attribute [irreducible] Meets

end Xv6.Lib.Command
