import Mathlib.Logic.Function.Basic
import Mathlib.Tactic.Common

/-!
# Ring buffers with free-running counters

Library `Base`. A ring of `size` cells is read at position `r`, holds `n` elements and is
written at position `r + n`; positions count up without bound or modulo a multiple of the
size. The queue that a ring represents gains an element at its end and loses one at its head.
-/

namespace Xv6K210.Base

variable {α : Type}

/-- The elements of a ring, oldest first. -/
def ring (size : Nat) (data : Nat → α) (r n : Nat) : List α :=
  (List.range n).map fun k ↦ data ((r + k) % size)

/-- A ring has as many elements as it says. -/
@[simp] theorem length_ring (size : Nat) (data : Nat → α) (r n : Nat) :
    (ring size data r n).length = n := by
  simp [ring]

/-- Writing behind the last element appends to the queue, when a cell is left. -/
theorem ring_push {size n : Nat} (data : Nat → α) (r : Nat) (b : α) (h : n < size) :
    ring size (Function.update data ((r + n) % size) b) r (n + 1) = ring size data r n ++ [b] := by
  rw [ring, List.range_succ, List.map_append]
  apply congrArg₂
  · apply List.map_congr_left
    intro k hk
    have hkn : k < n := List.mem_range.mp hk
    apply Function.update_of_ne
    intro heq
    -- two positions less than `size` apart are in different cells
    have hmod : (r + n) % size = (r + k) % size := heq.symm
    have hsub : (r + n - (r + k)) % size = 0 := Nat.sub_mod_eq_zero_of_mod_eq hmod
    rw [Nat.mod_eq_of_lt (by omega)] at hsub
    omega
  · rw [List.map_singleton, Function.update_self]

/-- Reading takes the head of the queue. -/
theorem ring_pop (size : Nat) (data : Nat → α) (r n : Nat) :
    ring size data r (n + 1) = data (r % size) :: ring size data (r + 1) n := by
  rw [ring, List.range_succ_eq_map, List.map_cons, List.map_map]
  apply congrArg₂
  · rw [Nat.add_zero]
  · apply List.map_congr_left
    intro k _
    show data ((r + (k + 1)) % size) = data ((r + 1 + k) % size)
    rw [Nat.add_right_comm r 1 k, Nat.add_assoc]

/-- Positions may be taken modulo a multiple of the size. -/
theorem ring_mod {size m : Nat} (h : size ∣ m) (data : Nat → α) (r n : Nat) :
    ring size data (r % m) n = ring size data r n := by
  apply List.map_congr_left
  intro k _
  rw [Nat.add_mod, Nat.mod_mod_of_dvd r h, ← Nat.add_mod]

end Xv6K210.Base
