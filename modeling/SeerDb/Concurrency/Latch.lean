/-
# `SeerDb.Concurrency.Latch` — the hybrid latch under every interleaving

`concurrency/latch.rs`.  All threads share one word; each holds some read locks and write
locks and may stand inside one of the two retry loops with the value it last saw.  One step
is one atomic access.  The word counts the read locks that are held, or is `WRITE_LOCKED`
while one write lock is held, whatever values the threads inside the loops still carry.
-/
import SeerDb.Format
import Mathlib.Algebra.BigOperators.Fin
import Mathlib.Algebra.Order.BigOperators.Group.Finset

namespace SeerDb.HybridLatch

def unlocked : Nat := 0

def readLocked : Nat := 1

def writeLocked : Nat := u32Max

def isLocked (word : Nat) : Bool := word ≠ unlocked

/-- The word `try_read_lock` asks for after it saw `current`; `none` when it gives up. -/
def readTarget (current : Nat) : Option Nat :=
  if current = writeLocked then none
  else some (if current = unlocked then readLocked else current + 1)

/-- The word `read_unlock` asks for after it saw `current`; `none` when there is nothing to do. -/
def unlockTarget (current : Nat) : Option Nat :=
  if current = unlocked ∨ current = writeLocked then none
  else some (if current = readLocked then unlocked else current - 1)

/-! ## Threads and steps -/

/-- Where a thread stands: outside a call, or in a retry loop with the value it saw. -/
inductive Place where
  | idle
  | locking (current : Nat)
  | unlocking (current : Nat)
deriving DecidableEq, Repr

structure Thread where
  place : Place
  reads : Nat
  writes : Nat
deriving DecidableEq, Repr

/-- One atomic access of a thread, from the word it finds to the word it leaves. -/
inductive Access : Nat → Thread → Nat → Thread → Prop
  | lockLoad {w r k : Nat} : Access w ⟨.idle, r, k⟩ w ⟨.locking w, r, k⟩
  | lockRefused {w r k c : Nat} (h : readTarget c = none) :
      Access w ⟨.locking c, r, k⟩ w ⟨.idle, r, k⟩
  | lockSwap {r k c new : Nat} (h : readTarget c = some new) :
      Access c ⟨.locking c, r, k⟩ new ⟨.idle, r + 1, k⟩
  -- a weak exchange may fail although the word is `c`
  | lockRetry {w r k c new : Nat} (h : readTarget c = some new) :
      Access w ⟨.locking c, r, k⟩ w ⟨.locking w, r, k⟩
  | unlockLoad {w r k : Nat} : Access w ⟨.idle, r + 1, k⟩ w ⟨.unlocking w, r + 1, k⟩
  | unlockSkipped {w r k c : Nat} (h : unlockTarget c = none) :
      Access w ⟨.unlocking c, r, k⟩ w ⟨.idle, r - 1, k⟩
  | unlockSwap {r k c new : Nat} (h : unlockTarget c = some new) :
      Access c ⟨.unlocking c, r, k⟩ new ⟨.idle, r - 1, k⟩
  | unlockRetry {w r k c new : Nat} (h : unlockTarget c = some new) :
      Access w ⟨.unlocking c, r, k⟩ w ⟨.unlocking w, r, k⟩
  | writeSwap {r k : Nat} : Access unlocked ⟨.idle, r, k⟩ writeLocked ⟨.idle, r, k + 1⟩
  | writeRefused {w r k : Nat} (h : w ≠ unlocked) : Access w ⟨.idle, r, k⟩ w ⟨.idle, r, k⟩
  | writeUnlock {w r k : Nat} : Access w ⟨.idle, r, k + 1⟩ unlocked ⟨.idle, r, k⟩

variable {ι : Type} [Fintype ι]

structure State (ι : Type) where
  word : Nat
  threads : ι → Thread

def State.readers (s : State ι) : Nat := ∑ i, (s.threads i).reads

def State.writers (s : State ι) : Nat := ∑ i, (s.threads i).writes

/-- Every interleaving of the threads' accesses with fewer than `2 ^ 32 - 1` read locks held
at once. -/
inductive Reachable [DecidableEq ι] : State ι → Prop
  | new : Reachable ⟨unlocked, fun _ => ⟨.idle, 0, 0⟩⟩
  | step {s : State ι} {i : ι} {word : Nat} {t : Thread} (h : Reachable s)
      (ha : Access s.word (s.threads i) word t)
      (hb : State.readers ⟨word, Function.update s.threads i t⟩ < 2 ^ 32 - 1) :
      Reachable ⟨word, Function.update s.threads i t⟩

/-! ## Exclusion -/

/-- The word counts the read locks that are held, or one write lock is held. -/
def Counts (word readers writers : Nat) : Prop :=
  writers = 0 ∧ word = readers ∨ writers = 1 ∧ readers = 0 ∧ word = writeLocked

/-- A thread that gives a read lock back holds one and saw one. -/
def Thread.Releases (t : Thread) : Prop :=
  ∀ c, t.place = .unlocking c → 0 < t.reads ∧ c ≠ unlocked ∧ c ≠ writeLocked

structure Inv (s : State ι) : Prop where
  word : Counts s.word s.readers s.writers
  bound : s.readers < writeLocked
  threads : ∀ i, (s.threads i).Releases

theorem Access.counts {word word' readers readers' writers writers' : Nat} {t t' : Thread}
    (ha : Access word t word' t') (ht : t.Releases) (hword : Counts word readers writers)
    (hreads : readers' + t.reads = readers + t'.reads)
    (hwrites : writers' + t.writes = writers + t'.writes) :
    Counts word' readers' writers' := by
  have hzero : unlocked = 0 := rfl
  have hone : readLocked = 1 := rfl
  have hmax : writeLocked = 4294967295 := rfl
  rw [Counts] at hword ⊢
  cases ha with
  | lockSwap htarget =>
    rw [readTarget] at htarget
    grind
  | unlockSkipped htarget =>
    obtain ⟨-, hne⟩ := ht _ rfl
    rw [unlockTarget, if_neg (not_or.mpr hne)] at htarget
    cases htarget
  | unlockSwap htarget =>
    obtain ⟨hr, -⟩ := ht _ rfl
    rw [unlockTarget] at htarget
    grind
  | _ =>
    simp only at hreads hwrites
    omega

/-- What a thread that moves changes of a sum over the threads. -/
theorem sum_update [DecidableEq ι] (f : Thread → Nat) (threads : ι → Thread) (i : ι) (t : Thread) :
    ∑ j, f (Function.update threads i t j) + f (threads i) = ∑ j, f (threads j) + f t := by
  have hrest : ∀ j ∈ Finset.univ.erase i, f (Function.update threads i t j) = f (threads j) :=
    fun j hj => by
    rw [Function.update_of_ne (Finset.ne_of_mem_erase hj)]
  rw [← Finset.add_sum_erase _ (fun j => f (Function.update threads i t j)) (Finset.mem_univ i),
    ← Finset.add_sum_erase _ (fun j => f (threads j)) (Finset.mem_univ i),
    Finset.sum_congr rfl hrest, Function.update_self]
  omega

/-- A read lock that is held shows in the word. -/
theorem Inv.held {s : State ι} (h : Inv s) {i : ι} (hr : 0 < (s.threads i).reads) :
    s.word ≠ unlocked ∧ s.word ≠ writeLocked := by
  have hle : (s.threads i).reads ≤ s.readers :=
    Finset.single_le_sum (fun j _ => Nat.zero_le (s.threads j).reads) (Finset.mem_univ i)
  have hword := h.word
  have hbound := h.bound
  rw [Counts] at hword
  rw [unlocked]
  omega

theorem Inv.step [DecidableEq ι] {s : State ι} (h : Inv s) {i : ι} {word : Nat} {t : Thread}
    (ha : Access s.word (s.threads i) word t)
    (hb : State.readers ⟨word, Function.update s.threads i t⟩ < writeLocked) :
    Inv ⟨word, Function.update s.threads i t⟩ := by
  refine ⟨ha.counts (h.threads i) h.word (sum_update Thread.reads s.threads i t)
    (sum_update Thread.writes s.threads i t), hb, fun j => ?_⟩
  by_cases hij : j = i
  · subst hij
    have hheld := @Inv.held _ _ s h j
    have hmine := h.threads j
    simp only [Function.update_self]
    generalize s.word = w, s.threads j = mine at ha hheld hmine
    intro c hc
    cases ha with
    | unlockLoad =>
      cases hc
      exact ⟨Nat.succ_pos _, hheld (Nat.succ_pos _)⟩
    | unlockRetry _ =>
      cases hc
      obtain ⟨hr, -⟩ := hmine _ rfl
      exact ⟨hr, hheld hr⟩
    | _ => cases hc
  · simp only [Function.update_of_ne hij]
    exact h.threads j

theorem Reachable.inv [DecidableEq ι] {s : State ι} (h : Reachable s) : Inv s := by
  induction h with
  | new =>
    have hreaders : State.readers (⟨unlocked, fun _ => ⟨.idle, 0, 0⟩⟩ : State ι) = 0 := by
      simp [State.readers]
    have hwriters : State.writers (⟨unlocked, fun _ => ⟨.idle, 0, 0⟩⟩ : State ι) = 0 := by
      simp [State.writers]
    exact ⟨.inl ⟨hwriters, hreaders.symm⟩, hreaders.trans_lt (by decide), fun _ _ hc => by cases hc⟩
  | step _ ha hb ih => exact ih.step ha hb

/-- **Exclusion.**  At most one write lock is held, none together with a read lock, and the
latch is unlocked exactly when nothing is held. -/
theorem reachable_excludes [DecidableEq ι] {s : State ι} (h : Reachable s) :
    s.writers ≤ 1 ∧ (0 < s.writers → s.readers = 0) ∧
      (isLocked s.word = false ↔ s.readers = 0 ∧ s.writers = 0) := by
  have hword := h.inv.word
  have hbound := h.inv.bound
  have hmax : writeLocked = 4294967295 := rfl
  rw [Counts] at hword
  rw [isLocked, decide_eq_false_iff_not, not_not, unlocked]
  omega

/-- Two threads: one writes and the other is refused. -/
theorem reachable_excludes_refused : ∃ s : State (Fin 2), s.writers = 1 ∧ (s.threads 1).place =
    .locking writeLocked ∧ s.readers = 0 := by
  have h1 := @Reachable.step (Fin 2) _ _ _ 0 _ _ .new .writeSwap (by decide)
  have h2 := @Reachable.step (Fin 2) _ _ _ 1 _ _ h1 .lockLoad (by decide)
  exact ⟨_, rfl, rfl, (reachable_excludes h2).2.1 (by decide)⟩

end SeerDb.HybridLatch
