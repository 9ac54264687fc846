import Splice.Proofs.Build
/-!
# Operations — both ways a run can end

A failed operation leaves a store too, with all that was done until then.
So what an operation does to the store is said for both ways to end at
once: `Runs x σ Q E` says that an answer and the session it leaves satisfy
`Q`, and that the store left by a failure satisfies `E`. Most operations
only read (`Reads`), and a run of several is followed step by step
(`Runs.bind`, `Reads.bind`).
-/

namespace Splice

namespace Build

variable {α β : Type} {σ τ : Session} {x : Build α} {f : α → Build β}
  {Q Q' : α → Session → Prop} {R : β → Session → Prop} {E E' : Store → Prop} {P : α → Prop}

/-- However the run ends, `Q` holds of an answer and the session it leaves,
and `E` of the store that a failure leaves. -/
def Runs (x : Build α) (σ : Session) (Q : α → Session → Prop) (E : Store → Prop) : Prop :=
  match x σ with
  | .ok a τ => Q a τ
  | .error _ τ => E τ.store

theorem Runs.of_ok {a : α} (h : x σ = .ok a τ) (ha : Q a τ) : Runs x σ Q E := by
  rw [Runs, h]
  exact ha

theorem Runs.of_error {e : Failure} (h : x σ = .error e τ) (hτ : E τ.store) : Runs x σ Q E := by
  rw [Runs, h]
  exact hτ

theorem Runs.ok {a : α} (h : Runs x σ Q E) (ha : x σ = .ok a τ) : Q a τ := by
  rwa [Runs, ha] at h

theorem Runs.error {e : Failure} (h : Runs x σ Q E) (he : x σ = .error e τ) : E τ.store := by
  rwa [Runs, he] at h

theorem Runs.pure {a : α} (h : Q a σ) : Runs (pure a) σ Q E := h

theorem Runs.imp (h : Runs x σ Q E) (hQ : ∀ a τ, Q a τ → Q' a τ) (hE : ∀ s, E s → E' s) :
    Runs x σ Q' E' := by
  unfold Runs at h ⊢
  split
  · simp only [*] at h
    exact hQ _ _ h
  · simp only [*] at h
    exact hE _ h

/-- **The second step runs on from every way the first can succeed.** -/
theorem Runs.bind (h : Runs x σ Q E) (hf : ∀ a τ, Q a τ → Runs (f a) τ R E) :
    Runs (x >>= f) σ R E := by
  cases hx : x σ with
  | ok a τ =>
    have hrest := hf a τ (h.ok hx)
    rwa [Runs, bind_of_ok hx]
  | error e τ => exact .of_error (bind_of_error hx) (h.error hx)

/-- An operation that leaves the store as it is, and the session as well if
it succeeds. -/
def Reads (x : Build α) (σ : Session) (P : α → Prop) : Prop :=
  Runs x σ (fun a τ => τ = σ ∧ P a) fun s => s = σ.store

/-- After a step that reads, the next runs from the same session. -/
theorem Reads.bind (h : Reads x σ P) (hE : E σ.store) (hf : ∀ a, P a → Runs (f a) σ R E) :
    Runs (x >>= f) σ R E := by
  refine Runs.bind (Runs.imp h (fun _ _ ha => ha) fun s hs => hs ▸ hE) ?_
  rintro a τ ⟨rfl, ha⟩
  exact hf a ha

/-- Steps that read make a step that reads. -/
theorem Reads.trans {P' : β → Prop} (h : Reads x σ P) (hf : ∀ a, P a → Reads (f a) σ P') :
    Reads (x >>= f) σ P' := Reads.bind h rfl hf

theorem Reads.imp {P' : α → Prop} (h : Reads x σ P) (hP : ∀ a, P a → P' a) : Reads x σ P' :=
  Runs.imp h (fun a _ ha => ⟨ha.1, hP a ha.2⟩) fun _ hs => hs

theorem Reads.pure {a : α} (h : P a) : Reads (pure a) σ P := ⟨rfl, h⟩

theorem reads_of_ok {a : α} (h : x σ = .ok a σ) (ha : P a) : Reads x σ P := .of_ok h ⟨rfl, ha⟩

theorem reads_read {f : Store → Except Failure α} (h : ∀ a, f σ.store = .ok a → P a) :
    Reads (read f) σ P := by
  cases hf : f σ.store with
  | ok a => exact reads_of_ok (read_of_ok hf) (h a hf)
  | error e => exact .of_error (read_of_error hf) rfl

theorem reads_ask (f : Store → α) : Reads (ask f) σ fun a => a = f σ.store :=
  reads_of_ok (ask_apply f) rfl

theorem reads_throw (e : Failure) : Reads (throw e) σ P := rfl

/-- A literal that cannot be written is reported, and the store is as it was. -/
theorem reads_literal (v : Value) :
    Reads (literal v) σ fun t => (σ.store.datum v).encode = .ok t := by
  cases h : (σ.store.datum v).encode with
  | ok t => exact reads_of_ok (literal_of_ok h) rfl
  | error fault => exact .of_error (literal_of_error h) rfl

end Build

end Splice
