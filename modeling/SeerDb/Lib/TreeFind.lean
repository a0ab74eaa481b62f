/-
# `SeerDb.Lib.TreeFind` — searching a tree for one key
-/
import SeerDb.Lib.TreePath

namespace SeerDb.Lib

section

variable {K V : Type} [LinearOrder K] {L : Layout K V}

/-- The binding a search from page `p` at height `h` finds. -/
def find (S : Store K V) (k : K) : Nat → Nat → Option V
  | 0, p => match S p with
    | some (.leaf es) => get k es
    | _ => none
  | h + 1, p => match S p with
    | some (.inner l cs) => find S k h (route k l cs)
    | _ => none

def Tree.find (t : Tree K V) (k : K) : Option V := Lib.find t.store k t.height t.root

theorem Rep.find_eq {S : Store K V} {k : K} : ∀ {h lo hi p es ps}, Rep L S h lo hi p es ps →
    InRange lo hi k → find S k h p = get k es
  | 0, _, _, _, _, _, hr, _ => by rw [find, hr.1]
  | h + 1, _, _, _, _, _, hr, hk => by
    obtain ⟨l, cs, q, h1, -, h3, rfl⟩ := hr
    obtain ⟨lo', hi', left, mid, right, pleft, pmid, pright, rfl, rfl, hc, H⟩ :=
      h3.route_spec (fun _ _ _ _ _ hp => Rep.bindings hp) hk
    rw [find, h1]
    simp only
    rw [Rep.find_eq hc H.range, get_append_of_ne_right fun e he => (H.above e he).ne',
      get_append_of_ne_left fun e he => (H.below e he).ne]

theorem Tree.Holds.find_eq {t : Tree K V} {es : List (K × V)} (h : t.Holds L es) (k : K) :
    t.find k = get k es := by
  obtain ⟨ps, hr, -⟩ := h.rep
  exact hr.find_eq (inRange_full k)

end

end SeerDb.Lib
