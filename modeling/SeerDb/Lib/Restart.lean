/-
# `SeerDb.Lib.Restart` — systems of calls and crashes

A process works on a disk through a handle.  A crash ends it at any write of a call,
leaves some image of the disk at that moment, and a new process starts from it.  The
guard says which calls a run may contain.

`From.invariant` is the rule for all of this: an invariant of handle and disk that calls
preserve, and a weaker one of the disk alone that holds at every write and survives a
crash.
-/
import SeerDb.Lib.Crash

namespace SeerDb.Lib

variable {σ δ ε α ι : Type}

/-- The world a call leaves, whether it succeeds or fails. -/
def Prog.final (p : Prog σ δ ε α) (w : World σ δ) : World σ δ := match p w with
  | .ok _ w' => w'
  | .error _ w' => w'

/-- The disks that a crash during the call can start from: the first one and that after each
write. -/
def Prog.during (p : Prog σ δ ε α) (s : σ) (d : δ) : List δ := d :: (p.final ⟨s, d, []⟩).trace

structure System (σ δ ε ι : Type) where
  run : ι → Prog σ δ ε Unit
  crash : δ → δ → Prop
  /-- The handle of a process that has not opened the store yet. -/
  start : σ
  initial : δ → Prop
  allowed : ι → σ → δ → Prop

/-- The states of runs that begin in a state of `base`. -/
inductive System.From (S : System σ δ ε ι) (base : σ → δ → Prop) : σ → δ → Prop
  | base {s : σ} {d : δ} : base s d → From S base s d
  | call {s : σ} {d : δ} (i : ι) : From S base s d → S.allowed i s d →
      From S base ((S.run i).final ⟨s, d, []⟩).handle ((S.run i).final ⟨s, d, []⟩).disk
  | crash {s : σ} {d d₁ d₂ : δ} (i : ι) : From S base s d → S.allowed i s d →
      d₁ ∈ (S.run i).during s d → S.crash d₁ d₂ → From S base S.start d₂

def System.Reached (S : System σ δ ε ι) : σ → δ → Prop :=
  S.From fun s d => s = S.start ∧ S.initial d

/-- The states of a run that has passed a moment with `P`. -/
def System.Since (S : System σ δ ε ι) (P : σ → δ → Prop) : σ → δ → Prop :=
  S.From fun s d => S.Reached s d ∧ P s d

section

variable {C : δ → Prop} {s : σ} {d : δ} {p : Prog σ δ ε α}

/-- A call whose two outcomes are the same for the caller. -/
theorem Runs.final {Q : World σ δ → Prop} {w : World σ δ} (h : RunsTo C p w Q) : Q (p.final w) := by
  rw [RunsTo, Runs] at h
  rw [Prog.final]
  cases hp : p w <;> rw [hp] at h <;> exact h.1

/-- The crash condition holds at every moment if it does so at the first. -/
theorem Runs.during {Q : α → World σ δ → Prop} {E : ε → World σ δ → Prop}
    (h : Runs C p ⟨s, d, []⟩ Q E) (hd : C d) : ∀ d' ∈ p.during s d, C d' := by
  have hpassed : Passed C ⟨s, d, []⟩ (p.final ⟨s, d, []⟩) := by
    rw [Runs] at h
    rw [Prog.final]
    cases hp : p ⟨s, d, []⟩ <;> rw [hp] at h <;> exact h.2
  obtain ⟨ds, htrace, hds⟩ := hpassed
  rw [List.append_nil] at htrace
  rw [Prog.during, htrace]
  exact List.forall_mem_cons.mpr ⟨hd, hds⟩

end

/-- **The invariant rule.** -/
theorem System.From.invariant {S : System σ δ ε ι} {base I : σ → δ → Prop} {D : δ → Prop}
    (hbase : ∀ s d, base s d → I s d)
    (hcall : ∀ i s d, S.allowed i s d → I s d →
      RunsTo D (S.run i) ⟨s, d, []⟩ (fun w => I w.handle w.disk))
    (hdisk : ∀ s d, I s d → D d) (hcrash : ∀ d d', D d → S.crash d d' → I S.start d')
      {s : σ} {d : δ}
    (h : S.From base s d) : I s d := by
  induction h with
  | base hb => exact hbase _ _ hb
  | call i _ ha ih => exact (hcall i _ _ ha ih).final (Q := fun w => I w.handle w.disk)
  | crash i _ ha hd hc ih =>
    exact hcrash _ _ ((hcall i _ _ ha ih).during (hdisk _ _ ih) _ hd) hc

/-! ## Runs without a crash -/

/-- The state after the calls `is`. -/
def System.runAll (S : System σ δ ε ι) : List ι → σ → δ → σ × δ
  | [], s, d => (s, d)
  | i :: is, s, d => S.runAll is ((S.run i).final ⟨s, d, []⟩).handle
      ((S.run i).final ⟨s, d, []⟩).disk

theorem System.From.runAll {S : System σ δ ε ι} {base : σ → δ → Prop} {is : List ι}
    (hall : ∀ i ∈ is, ∀ s d, S.allowed i s d) {s : σ} {d : δ} (h : S.From base s d) :
    S.From base (S.runAll is s d).1 (S.runAll is s d).2 := by
  induction is generalizing s d with
  | nil => exact h
  | cons i is ih => exact ih (fun j hj => hall j (.tail _ hj)) (.call i h (hall i (.head _) s d))

/-! ## Runs with a record

What a property says about a whole run is written into a record beside it. -/

/-- How a record is kept. -/
structure Recorder (σ δ ι γ : Type) where
  blank : γ
  /-- The record after a call that returned. -/
  note : γ → ι → σ → δ → γ
  /-- The record after a call that a crash cut short. -/
  cut : γ → ι → σ → δ → γ

section Recorded

variable {γ : Type} {S : System σ δ ε ι} {R : Recorder σ δ ι γ} {allowed : γ → ι → σ → δ → Prop}

inductive System.Recorded (S : System σ δ ε ι) (R : Recorder σ δ ι γ)
    (allowed : γ → ι → σ → δ → Prop) :
    γ → σ → δ → Prop
  | initial {d : δ} : S.initial d → Recorded S R allowed R.blank S.start d
  | call {g : γ} {s : σ} {d : δ} (i : ι) : Recorded S R allowed g s d → allowed g i s d →
      Recorded S R allowed (R.note g i s d) ((S.run i).final ⟨s, d, []⟩).handle
        ((S.run i).final ⟨s, d, []⟩).disk
  | crash {g : γ} {s : σ} {d d₁ d₂ : δ} (i : ι) : Recorded S R allowed g s d → allowed g i s d →
      d₁ ∈ (S.run i).during s d → S.crash d₁ d₂ → Recorded S R allowed (R.cut g i s d) S.start d₂

theorem System.Recorded.invariant {I : γ → σ → δ → Prop} {D : γ → δ → Prop}
    (hinitial : ∀ d, S.initial d → I R.blank S.start d)
    (hcall : ∀ g i s d, allowed g i s d → I g s d → RunsTo (D (R.cut g i s d)) (S.run i) ⟨s, d, []⟩
      (fun w => I (R.note g i s d) w.handle w.disk))
    (hdisk : ∀ g i s d, allowed g i s d → I g s d → D (R.cut g i s d) d)
    (hcrash : ∀ g d d', D g d → S.crash d d' → I g S.start d')
    {g : γ} {s : σ} {d : δ} (h : S.Recorded R allowed g s d) : I g s d := by
  induction h with
  | initial hd => exact hinitial _ hd
  | @call g s d i _ ha ih =>
    exact (hcall g i s d ha ih).final (Q := fun w => I (R.note g i s d) w.handle w.disk)
  | crash i _ ha hd hc ih =>
    exact hcrash _ _ _ ((hcall _ i _ _ ha ih).during (hdisk _ i _ _ ha ih) _ hd) hc

/-- The record and the state after the calls `is`. -/
def System.recordAll (S : System σ δ ε ι) (R : Recorder σ δ ι γ) : List ι → γ → σ → δ → γ × σ × δ
  | [], g, s, d => (g, s, d)
  | i :: is, g, s, d => S.recordAll R is (R.note g i s d) ((S.run i).final ⟨s, d, []⟩).handle
      ((S.run i).final ⟨s, d, []⟩).disk

/-- Each of the calls `is` is allowed when its turn comes. -/
def System.AllowedAll (S : System σ δ ε ι) (R : Recorder σ δ ι γ) (allowed : γ → ι → σ → δ → Prop) :
    List ι → γ → σ → δ → Prop
  | [], _, _, _ => True
  | i :: is, g, s, d => allowed g i s d ∧ S.AllowedAll R allowed is (R.note g i s d)
      ((S.run i).final ⟨s, d, []⟩).handle ((S.run i).final ⟨s, d, []⟩).disk

theorem System.Recorded.recordAll (is : List ι) : ∀ {g : γ} {s : σ} {d : δ},
    S.Recorded R allowed g s d → S.AllowedAll R allowed is g s d →
      S.Recorded R allowed (S.recordAll R is g s d).1 (S.recordAll R is g s d).2.1
        (S.recordAll R is g s d).2.2 := by
  induction is with
  | nil =>
    intro g s d h _
    exact h
  | cons i is ih =>
    intro g s d h ha
    exact ih (.call i h ha.1) ha.2

theorem System.allowedAll_of_forall (hall : ∀ g i s d, allowed g i s d) (is : List ι) :
    ∀ (g : γ) (s : σ) (d : δ), S.AllowedAll R allowed is g s d := by
  induction is with
  | nil =>
    intro _ _ _
    trivial
  | cons i is ih =>
    intro g s d
    exact ⟨hall g i s d, ih _ _ _⟩

end Recorded

end SeerDb.Lib
