import Mathlib

/-!
# Items that threads pass along

The places that items go through are listed from the last one to the first. A
thread takes the first item of a place and puts it behind those of the next. The
items keep their order, and each move leaves one move less to be made.
-/
namespace Hispar.Library.Channels
variable {α : Type*} {s s' : List (List α)} {q : List α} {x : α}

inductive Pass : List (List α) → List (List α) → Prop
  | here (q r : List α) (x : α) (s : List (List α)) : Pass (q :: (x :: r) :: s) ((q ++ [x]) :: r :: s)
  | behind (q : List α) {s s' : List (List α)} (h : Pass s s') : Pass (q :: s) (q :: s')

/-- The moves that are left until every item is in the last place. -/
def work : List (List α) → ℕ
  | [] => 0
  | _ :: s => s.flatten.length + work s

theorem Pass.flatten (h : Pass s s') : s'.flatten = s.flatten := by
  induction h with
  | here q r x s => simp
  | behind q _ ih => rw [List.flatten_cons, List.flatten_cons, ih]

theorem Pass.work (h : Pass s s') : Channels.work s' + 1 = Channels.work s := by
  induction h with
  | here q r x s =>
    simp only [Channels.work, List.flatten_cons, List.length_append, List.length_cons]
    omega
  | behind q h ih =>
    rw [Channels.work, Channels.work, h.flatten]
    omega

inductive Drop : List (List α) → List (List α) → Prop
  | here (q r : List α) (x : α) (s : List (List α)) : Drop (q :: (x :: r) :: s) (q :: r :: s)
  | behind (q : List α) {s s' : List (List α)} (h : Drop s s') : Drop (q :: s) (q :: s')

theorem Drop.work (h : Drop s s') :
    Channels.work s' < Channels.work s ∧ s'.flatten.length < s.flatten.length := by
  induction h with
  | here q r x s =>
    simp only [Channels.work, List.flatten_cons, List.length_append, List.length_cons]
    omega
  | behind q _ ih =>
    simp only [Channels.work, List.flatten_cons, List.length_append]
    omega

end Hispar.Library.Channels
