/-
# `SeerDb.Lib.Crash` — programs over a handle and a disk, and what they owe at a crash

A call of a store changes its handle, which a crash loses, and the disk, which a crash
keeps.  `Prog` is the state-and-error monad over both; what a failing call has changed
stays changed.  Every write is recorded: a run leaves behind the list of disk states
that a crash during the call can start from.

`Runs C p w Q E` is total correctness with a crash condition: from the world `w`
the call ends in `Q` or fails in `E`, and every disk state on the way satisfies
`C`.  The rules below are one for each way a program is put together.
-/
import Mathlib.Algebra.GroupWithZero.Nat
import Mathlib.Algebra.Order.Group.Nat
import Mathlib.Tactic.Common

namespace SeerDb.Lib

/-- What a call works on: the handle, the disk, and the states the disk has
passed through, newest first. -/
structure World (σ δ : Type) where
  handle : σ
  disk : δ
  trace : List δ

abbrev Prog (σ δ ε α : Type) := EStateM ε (World σ δ) α

variable {σ δ ε α β : Type}

namespace Prog

def handle : Prog σ δ ε σ := fun w => .ok w.handle w

def disk : Prog σ δ ε δ := fun w => .ok w.disk w

def modifyHandle (f : σ → σ) : Prog σ δ ε Unit := fun w => .ok () { w with handle := f w.handle }

/-- One write: the disk passes through the state it leaves. -/
def write (f : δ → δ) : Prog σ δ ε Unit := fun w =>
  .ok () { w with disk := f w.disk, trace := f w.disk :: w.trace }

/-- `?` on the result of a pure function. -/
def lift : Except ε α → Prog σ δ ε α
  | .ok a => pure a
  | .error e => throw e

/-- Fail with `e` unless `c` holds. -/
def check (c : Bool) (e : ε) : Prog σ δ ε Unit := if c then pure () else throw e

/-- Run `p` if `c` holds. -/
def runIf (c : Bool) (p : Prog σ δ ε Unit) : Prog σ δ ε Unit := if c then p else pure ()

/-- Run `p`; when it fails, run `f` on the error and fail with it all the same. -/
def onError (p : Prog σ δ ε α) (f : ε → Prog σ δ ε Unit) : Prog σ δ ε α := fun w =>
  match p w with
  | .ok a w' => .ok a w'
  | .error e w' => match f e w' with
    | .ok _ w'' => .error e w''
    | .error _ w'' => .error e w''

def forEach (f : β → Prog σ δ ε Unit) : List β → Prog σ δ ε Unit
  | [] => pure ()
  | b :: bs => do f b; forEach f bs

/-- Run a program on a part of the handle. -/
def zoom {τ : Type} (part : τ → σ) (put : σ → τ → τ) (p : Prog σ δ ε α) : Prog τ δ ε α := fun w =>
  match p ⟨part w.handle, w.disk, w.trace⟩ with
  | .ok a w' => .ok a ⟨put w'.handle w.handle, w'.disk, w'.trace⟩
  | .error e w' => .error e ⟨put w'.handle w.handle, w'.disk, w'.trace⟩

end Prog

/-! ## Total correctness with a crash condition -/

/-- Between `w` and `w'` the disk only passed through states of `C`. -/
def Passed (C : δ → Prop) (w w' : World σ δ) : Prop :=
  ∃ ds, w'.trace = ds ++ w.trace ∧ ∀ d ∈ ds, C d

theorem Passed.refl (C : δ → Prop) (w : World σ δ) : Passed C w w := ⟨[], rfl, by simp⟩

theorem Passed.trans {C : δ → Prop} {w₁ w₂ w₃ : World σ δ} (h : Passed C w₁ w₂)
    (h' : Passed C w₂ w₃) : Passed C w₁ w₃ := by
  obtain ⟨ds, h1, h2⟩ := h
  obtain ⟨ds', h3, h4⟩ := h'
  refine ⟨ds' ++ ds, by rw [h3, h1, List.append_assoc], fun d hd => ?_⟩
  rcases List.mem_append.mp hd with hd | hd
  · exact h4 d hd
  · exact h2 d hd

theorem Passed.mono {C C' : δ → Prop} {w w' : World σ δ} (h : Passed C w w')
    (hC : ∀ d, C d → C' d) : Passed C' w w' := by
  obtain ⟨ds, h1, h2⟩ := h
  exact ⟨ds, h1, fun d hd => hC d (h2 d hd)⟩

def Runs (C : δ → Prop) (p : Prog σ δ ε α) (w : World σ δ) (Q : α → World σ δ → Prop)
    (E : ε → World σ δ → Prop) : Prop :=
  match p w with
  | .ok a w' => Q a w' ∧ Passed C w w'
  | .error e w' => E e w' ∧ Passed C w w'

/-- What holds however the call ends. -/
abbrev RunsTo (C : δ → Prop) (p : Prog σ δ ε α) (w : World σ δ) (P : World σ δ → Prop) : Prop :=
  Runs C p w (fun _ => P) (fun _ => P)

variable {C C' : δ → Prop} {w : World σ δ} {p : Prog σ δ ε α} {Q Q' : α → World σ δ → Prop}
  {E E' : ε → World σ δ → Prop} {I : World σ δ → Prop} {c : Bool}

theorem Runs.mono (h : Runs C p w Q E) (hC : ∀ d, C d → C' d)
    (hQ : ∀ a w', Q a w' → Q' a w') (hE : ∀ e w', E e w' → E' e w') : Runs C' p w Q' E' := by
  rw [Runs] at h ⊢
  split at h
  · exact ⟨hQ _ _ h.1, h.2.mono hC⟩
  · exact ⟨hE _ _ h.1, h.2.mono hC⟩

theorem Runs.conseq (h : Runs C p w Q E) (hQ : ∀ a w', Q a w' → Q' a w')
    (hE : ∀ e w', E e w' → E' e w') :
    Runs C p w Q' E' := h.mono (fun _ hd => hd) hQ hE

theorem Runs.imp (h : Runs C p w Q E)
    (hQ : ∀ a w', Q a w' → Q' a w') : Runs C p w Q' E := h.conseq hQ fun _ _ he => he

theorem Runs.imp_error (h : Runs C p w Q E)
    (hE : ∀ e w', E e w' → E' e w') : Runs C p w Q E' := h.conseq (fun _ _ hq => hq) hE

theorem Runs.both {P P' : World σ δ → Prop}
    (h : RunsTo C p w P) (hC : ∀ d, C d → C' d) (hP : ∀ w', P w' → P' w') :
    RunsTo C' p w P' := h.mono hC (fun _ => hP) fun _ => hP

/-- The outcome is that of the call itself. -/
theorem Runs.result (h : Runs C p w Q E) :
    Runs C p w (fun a w' => p w = .ok a w' ∧ Q a w') (fun e w' => p w = .error e w' ∧ E e w') := by
  rw [Runs] at h ⊢
  cases hp : p w <;> rw [hp] at h <;> exact ⟨⟨rfl, h.1⟩, h.2⟩

theorem Runs.pure {a : α} (h : Q a w) : Runs C (pure a : Prog σ δ ε α) w Q E := ⟨h, Passed.refl C w⟩

theorem Runs.throw {e : ε} (h : E e w) : Runs C (throw e : Prog σ δ ε α) w Q E :=
  ⟨h, Passed.refl C w⟩

theorem Runs.bind {p : Prog σ δ ε β} {f : β → Prog σ δ ε α} {R : β → World σ δ → Prop}
    (hp : Runs C p w R E) (hf : ∀ b w', R b w' → Runs C (f b) w' Q E) :
    Runs C (p >>= f) w Q E := by
  have hb : (p >>= f) w = EStateM.bind p f w := rfl
  rw [Runs] at hp
  rw [Runs, hb, EStateM.bind]
  cases hpw : p w with
  | error e w' =>
    rw [hpw] at hp
    exact hp
  | ok b w' =>
    rw [hpw] at hp
    have h := hf b w' hp.1
    rw [Runs] at h
    simp only
    cases hfw : f b w' <;> rw [hfw] at h <;> exact ⟨h.1, hp.2.trans h.2⟩

theorem Runs.handle {f : σ → Prog σ δ ε α} (h : Runs C (f w.handle) w Q E) :
    Runs C (Prog.handle >>= f) w Q E := h

theorem Runs.disk {f : δ → Prog σ δ ε α} (h : Runs C (f w.disk) w Q E) :
    Runs C (Prog.disk >>= f) w Q E := h

theorem Runs.modifyHandle {f : σ → σ} {g : Unit → Prog σ δ ε α}
    (h : Runs C (g ()) { w with handle := f w.handle } Q E) :
    Runs C (Prog.modifyHandle f >>= g) w Q E := h

theorem Runs.write {f : δ → δ} {g : Unit → Prog σ δ ε α} (hC : C (f w.disk))
    (h : Runs C (g ()) { w with disk := f w.disk, trace := f w.disk :: w.trace } Q E) :
    Runs C (Prog.write f >>= g) w Q E := by
  refine .bind (R := fun _ w' => w' = { w with disk := f w.disk, trace := f w.disk :: w.trace })
    ⟨rfl, [f w.disk], rfl, by simpa using hC⟩ ?_
  rintro _ _ rfl
  exact h

theorem Runs.check {e : ε} {g : Unit → Prog σ δ ε α} (he : c = false → E e w)
    (h : c = true → Runs C (g ()) w Q E) : Runs C (Prog.check c e >>= g) w Q E := by
  cases c with
  | true => exact h rfl
  | false => exact ⟨he rfl, Passed.refl C w⟩

theorem Runs.lift {x : Except ε β} {g : β → Prog σ δ ε α} (he : ∀ e, x = .error e → E e w)
    (h : ∀ b, x = .ok b → Runs C (g b) w Q E) : Runs C (Prog.lift x >>= g) w Q E := by
  cases x with
  | error e => exact ⟨he e rfl, Passed.refl C w⟩
  | ok b => exact h b rfl

theorem Runs.onError {f : ε → Prog σ δ ε Unit} {R : ε → World σ δ → Prop} (hp : Runs C p w Q R)
    (hf : ∀ e w', R e w' → RunsTo C (f e) w' (fun w'' => E e w'')) :
    Runs C (Prog.onError p f) w Q E := by
  rw [Runs] at hp ⊢
  rw [Prog.onError]
  cases hpw : p w with
  | ok a w' =>
    rw [hpw] at hp
    exact hp
  | error e w' =>
    rw [hpw] at hp
    have h := hf e w' hp.1
    rw [RunsTo, Runs] at h
    simp only
    cases hfw : f e w' <;> rw [hfw] at h <;> exact ⟨h.1, hp.2.trans h.2⟩

/-- The same, for a turn that knows its place in the list. -/
theorem Runs.forEach_mem {f : β → Prog σ δ ε Unit} {I : List β → World σ δ → Prop} {bs : List β}
    (hstep : ∀ pre b post w', bs = pre ++ b :: post → I pre w' →
      Runs C (f b) w' (fun _ w'' => I (pre ++ [b]) w'') E)
    (h : I [] w) : Runs C (Prog.forEach f bs) w (fun _ w' => I bs w') E := by
  have hgo : ∀ (post pre : List β) (w' : World σ δ), bs = pre ++ post → I pre w' →
      Runs C (Prog.forEach f post) w' (fun _ w'' => I bs w'') E := by
    intro post
    induction post with
    | nil =>
      intro pre w' hbs h
      rw [hbs, List.append_nil]
      exact .pure h
    | cons b post ih =>
      intro pre w' hbs h
      refine .bind (hstep pre b post w' hbs h) fun _ w'' h' => ih (pre ++ [b]) w'' ?_ h'
      rw [hbs, List.append_assoc, List.singleton_append]
  exact hgo bs [] w rfl h

/-! The same rules for a step that ends a program. -/

theorem Runs.of_modifyHandle {f : σ → σ} {Q : Unit → World σ δ → Prop}
    (h : Q () { w with handle := f w.handle }) : Runs C (Prog.modifyHandle f) w Q E :=
  ⟨h, Passed.refl C w⟩

theorem Runs.of_write {f : δ → δ} {Q : Unit → World σ δ → Prop} (hC : C (f w.disk))
    (h : Q () { w with disk := f w.disk, trace := f w.disk :: w.trace }) :
    Runs C (Prog.write f) w Q E :=
  ⟨h, [f w.disk], rfl, by simpa using hC⟩

theorem Runs.of_lift {x : Except ε α} (he : ∀ e, x = .error e → E e w)
    (h : ∀ a, x = .ok a → Q a w) :
    Runs C (Prog.lift x) w Q E := by
  cases x with
  | error e => exact ⟨he e rfl, Passed.refl C w⟩
  | ok a => exact ⟨h a rfl, Passed.refl C w⟩

theorem Runs.ite {c : Prop} [Decidable c] {q : Prog σ δ ε α} (hp : c → Runs C p w Q E)
    (hq : ¬ c → Runs C q w Q E) : Runs C (if c then p else q) w Q E := by
  split
  · exact hp ‹_›
  · exact hq ‹_›

theorem Runs.runIf {p : Prog σ δ ε Unit} {Q : Unit → World σ δ → Prop}
    (hp : c = true → Runs C p w Q E) (hn : c = false → Q () w) : Runs C (Prog.runIf c p) w Q E := by
  cases c with
  | true => exact hp rfl
  | false => exact .pure (hn rfl)

theorem Runs.zoom {τ : Type} {part : τ → σ} {put : σ → τ → τ} {w : World τ δ}
    {Q : α → World τ δ → Prop} {E : ε → World τ δ → Prop}
    (h : Runs C p ⟨part w.handle, w.disk, w.trace⟩
      (fun a w' => Q a ⟨put w'.handle w.handle, w'.disk, w'.trace⟩)
      (fun e w' => E e ⟨put w'.handle w.handle, w'.disk, w'.trace⟩)) :
    Runs C (Prog.zoom part put p) w Q E := by
  rw [Runs] at h ⊢
  rw [Prog.zoom]
  cases hp : p ⟨part w.handle, w.disk, w.trace⟩ <;> rw [hp] at h <;> exact h

/-- What two proofs say of one call holds together. -/
theorem Runs.and (h : Runs C p w Q E) (h' : Runs C' p w Q' E') :
    Runs (fun d => C d ∧ C' d) p w (fun a w' => Q a w' ∧ Q' a w')
      (fun e w' => E e w' ∧ E' e w') := by
  have hpass : ∀ {w'}, Passed C w w' → Passed C' w w' → Passed (fun d => C d ∧ C' d) w w' := by
    rintro w' ⟨ds, h1, h2⟩ ⟨ds', h3, h4⟩
    obtain rfl : ds = ds' := List.append_cancel_right (h1.symm.trans h3)
    exact ⟨ds, h1, fun d hd => ⟨h2 d hd, h4 d hd⟩⟩
  rw [Runs] at h h' ⊢
  cases hp : p w <;> rw [hp] at h h' <;> exact ⟨⟨h.1, h'.1⟩, hpass h.2 h'.2⟩

/-! ## The errors of a program -/

section Raises

variable {P : ε → Prop}

/-- Whatever `p` fails with satisfies `P`. -/
def Raises (P : ε → Prop) (p : Prog σ δ ε α) : Prop :=
  ∀ w : World σ δ, Runs (fun _ => True) p w (fun _ _ => True) (fun e _ => P e)

theorem Raises.pure (a : α) : Raises P (pure a : Prog σ δ ε α) := fun _ => .pure trivial

theorem Raises.throw {e : ε} (h : P e) : Raises P (throw e : Prog σ δ ε α) := fun _ => .throw h

theorem Raises.bind {p : Prog σ δ ε β} {k : β → Prog σ δ ε α} (hp : Raises P p)
    (hk : ∀ b, Raises P (k b)) : Raises P (p >>= k) := fun w =>
  .bind (hp w) fun b w' _ => hk b w'

theorem Raises.handle : Raises P (Prog.handle : Prog σ δ ε σ) := fun w => ⟨trivial, Passed.refl _ w⟩

theorem Raises.disk : Raises P (Prog.disk : Prog σ δ ε δ) := fun w => ⟨trivial, Passed.refl _ w⟩

theorem Raises.modifyHandle (u : σ → σ) :
    Raises P (Prog.modifyHandle u : Prog σ δ ε Unit) := fun _ =>
  .of_modifyHandle trivial

theorem Raises.write (u : δ → δ) : Raises P (Prog.write u : Prog σ δ ε Unit) := fun _ =>
  .of_write trivial trivial

theorem Raises.lift {x : Except ε α} (h : ∀ e, x = .error e → P e) :
    Raises P (Prog.lift x : Prog σ δ ε α) := fun _ => .of_lift h fun _ _ => trivial

theorem Raises.check (c : Bool) {e : ε} (h : P e) :
    Raises P (Prog.check c e : Prog σ δ ε Unit) := by
  rw [Prog.check]
  split
  · exact Raises.pure ()
  · exact Raises.throw h

theorem Raises.ite {c : Prop} [Decidable c] {q : Prog σ δ ε α} (hp : Raises P p) (hq : Raises P q) :
    Raises P (if c then p else q) := by
  split
  · exact hp
  · exact hq

theorem Raises.runIf {p : Prog σ δ ε Unit} (hp : Raises P p) : Raises P (Prog.runIf c p) :=
  Raises.ite hp (Raises.pure ())

theorem Raises.forEach {k : β → Prog σ δ ε Unit} (hk : ∀ b, Raises P (k b)) :
    ∀ bs : List β, Raises P (Prog.forEach k bs)
  | [] => Raises.pure ()
  | b :: bs => Raises.bind (hk b) fun _ => Raises.forEach hk bs

/-- The errors of a call join what else is known of it. -/
theorem Raises.runs (hp : Raises P p) (h : Runs C p w Q E) :
    Runs C p w Q (fun e w' => P e ∧ E e w') :=
  ((hp w).and h).mono (fun _ hd => hd.2) (fun _ _ hq => hq.2) fun _ _ he => he

/-- `p` never fails. -/
abbrev Infallible (p : Prog σ δ ε α) : Prop := Raises (fun _ => False) p

theorem Infallible.runs (hp : Infallible p) (h : Runs C p w Q E) : Runs C p w Q E' :=
  (Raises.runs hp h).conseq (fun _ _ hq => hq) fun _ _ he => he.1.elim

end Raises

/-! ## Programs that keep an invariant -/

/-- From `I` every outcome of `p` is in `I`, and every disk state on the way in `C`. -/
def Preserves (C : δ → Prop) (I : World σ δ → Prop) (p : Prog σ δ ε α) : Prop :=
  ∀ w : World σ δ, I w → RunsTo C p w I

theorem Preserves.pure (a : α) : Preserves C I (pure a : Prog σ δ ε α) := fun _ h => .pure h

theorem Preserves.throw (e : ε) : Preserves C I (throw e : Prog σ δ ε α) := fun _ h => .throw h

theorem Preserves.bind {p : Prog σ δ ε β} {k : β → Prog σ δ ε α} (hp : Preserves C I p)
    (hk : ∀ b, Preserves C I (k b)) : Preserves C I (p >>= k) := fun w h =>
  .bind (hp w h) fun b w' h' => hk b w' h'

theorem Preserves.handle : Preserves C I (Prog.handle : Prog σ δ ε σ) :=
  fun w h => ⟨h, Passed.refl _ w⟩

theorem Preserves.disk : Preserves C I (Prog.disk : Prog σ δ ε δ) := fun w h => ⟨h, Passed.refl _ w⟩

theorem Preserves.modifyHandle {u : σ → σ} (hu : ∀ w, I w → I { w with handle := u w.handle }) :
    Preserves C I (Prog.modifyHandle u : Prog σ δ ε Unit) := fun w h => .of_modifyHandle (hu w h)

theorem Preserves.lift (x : Except ε α) : Preserves C I (Prog.lift x : Prog σ δ ε α) := fun _ h =>
  .of_lift (fun _ _ => h) fun _ _ => h

theorem Preserves.check (c : Bool) (e : ε) : Preserves C I (Prog.check c e : Prog σ δ ε Unit) := by
  rw [Prog.check]
  split
  · exact Preserves.pure ()
  · exact Preserves.throw e

theorem Preserves.ite {c : Prop} [Decidable c] {q : Prog σ δ ε α} (hp : Preserves C I p)
    (hq : Preserves C I q) : Preserves C I (if c then p else q) := by
  split
  · exact hp
  · exact hq

theorem Preserves.runIf {p : Prog σ δ ε Unit} (hp : Preserves C I p) :
    Preserves C I (Prog.runIf c p) := Preserves.ite hp (Preserves.pure ())

theorem Preserves.onError {k : ε → Prog σ δ ε Unit} (hp : Preserves C I p)
    (hk : ∀ e, Preserves C I (k e)) : Preserves C I (Prog.onError p k) := fun w h =>
  .onError (hp w h) fun e w' h' => hk e w' h'

/-! ## Programs that leave a part of the world alone -/

section Keeps

variable {γ κ : Type} {f : σ → γ} {g : δ → κ}

/-- The part `f` of the handle and the part `g` of the disk are the same. -/
def SameParts (f : σ → γ) (g : δ → κ) (w w' : World σ δ) : Prop :=
  f w'.handle = f w.handle ∧ g w'.disk = g w.disk

theorem SameParts.trans {w₁ w₂ w₃ : World σ δ} (h : SameParts f g w₁ w₂)
    (h' : SameParts f g w₂ w₃) :
    SameParts f g w₁ w₃ := ⟨h'.1.trans h.1, h'.2.trans h.2⟩

/-- At no moment does `p` change the part `f` of the handle or the part `g` of the disk. -/
def Keeps (f : σ → γ) (g : δ → κ) (p : Prog σ δ ε α) : Prop := ∀ w : World σ δ,
  RunsTo (fun d => g d = g w.disk) p w (fun w' => SameParts f g w w')

/-- A predicate that only looks at the kept parts survives the program. -/
theorem Keeps.runs (hp : Keeps f g p) {P : World σ δ → Prop} (hC : ∀ d, g d = g w.disk → C d)
    (hP : ∀ w', SameParts f g w w' → P w') :
    RunsTo C p w (fun w' => P w') :=
  (hp w).mono hC (fun _ w' h => hP w' h) (fun _ w' h => hP w' h)

/-- An invariant of the kept parts. -/
theorem Keeps.preserves (hp : Keeps f g p)
    (hC : ∀ w d, I w → g d = g w.disk → C d) (hI : ∀ w w', I w → SameParts f g w w' → I w') :
    Preserves C I p := fun w h => hp.runs (fun d hd => hC w d h hd) fun w' hs => hI w w' h hs

theorem Keeps.within (hp : Keeps f g p) (w : World σ δ) :
    Preserves (fun d => g d = g w.disk) (SameParts f g w) p :=
  hp.preserves (fun _ _ h hd => hd.trans h.2) fun _ _ h hs => h.trans hs

theorem Keeps.of_within (h : ∀ w, Preserves (fun d => g d = g w.disk) (SameParts f g w) p) : Keeps f
    g p := fun w => h w w ⟨rfl, rfl⟩

theorem Keeps.pure (a : α) : Keeps f g (pure a : Prog σ δ ε α) := .of_within fun _ => .pure a

theorem Keeps.throw (e : ε) : Keeps f g (throw e : Prog σ δ ε α) := .of_within fun _ => .throw e

theorem Keeps.bind {p : Prog σ δ ε β} {k : β → Prog σ δ ε α} (hp : Keeps f g p)
    (hk : ∀ b, Keeps f g (k b)) : Keeps f g (p >>= k) :=
  .of_within fun w => .bind (hp.within w) fun b => (hk b).within w

theorem Keeps.handle : Keeps f g (Prog.handle : Prog σ δ ε σ) := .of_within fun _ => .handle

theorem Keeps.disk : Keeps f g (Prog.disk : Prog σ δ ε δ) := .of_within fun _ => .disk

theorem Keeps.modifyHandle {u : σ → σ} (h : ∀ s, f (u s) = f s) :
    Keeps f g (Prog.modifyHandle u : Prog σ δ ε Unit) := fun _ => .of_modifyHandle ⟨h _, rfl⟩

theorem Keeps.write {u : δ → δ} (h : ∀ d, g (u d) = g d) :
    Keeps f g (Prog.write u : Prog σ δ ε Unit) := fun _ => .of_write (h _) ⟨rfl, h _⟩

theorem Keeps.lift (x : Except ε α) : Keeps f g (Prog.lift x : Prog σ δ ε α) :=
  .of_within fun _ => .lift x

theorem Keeps.check (c : Bool) (e : ε) : Keeps f g (Prog.check c e : Prog σ δ ε Unit) :=
  .of_within fun _ => .check c e

theorem Keeps.ite {c : Prop} [Decidable c] {q : Prog σ δ ε α} (hp : Keeps f g p)
    (hq : Keeps f g q) :
    Keeps f g (if c then p else q) := .of_within fun w => .ite (hp.within w) (hq.within w)

theorem Keeps.runIf {p : Prog σ δ ε Unit} (hp : Keeps f g p) :
    Keeps f g (Prog.runIf c p) := Keeps.ite hp (Keeps.pure ())

theorem Keeps.onError {k : ε → Prog σ δ ε Unit} (hp : Keeps f g p)
    (hk : ∀ e, Keeps f g (k e)) : Keeps f g (Prog.onError p k) :=
  .of_within fun w => .onError (hp.within w) fun e => (hk e).within w

theorem Keeps.forEach {k : β → Prog σ δ ε Unit} (hk : ∀ b, Keeps f g (k b)) :
    ∀ bs : List β, Keeps f g (Prog.forEach k bs)
  | [] => Keeps.pure ()
  | b :: bs => Keeps.bind (hk b) fun _ => Keeps.forEach hk bs

end Keeps

end SeerDb.Lib
