import Mathlib.Tactic

/-!
# Machines fed one symbol at a time

`feed step s xs` runs a machine over a list of input symbols and collects what it
emits. Cutting the input into chunks changes nothing (`feed_append`): this is the
rule by which an incremental parser is shown to be independent of where its input
was cut.
-/

namespace Emulator

variable {σ α β : Type*}

/-- Run a machine over a list of symbols, collecting its output. -/
def feed (step : σ → α → σ × List β) : σ → List α → σ × List β
  | s, [] => (s, [])
  | s, x :: xs =>
    let r := step s x
    let t := feed step r.1 xs
    (t.1, r.2 ++ t.2)

@[simp] theorem feed_nil (step : σ → α → σ × List β) (s : σ) : feed step s [] = (s, []) := rfl

theorem feed_cons (step : σ → α → σ × List β) (s : σ) (x : α) (xs : List α) :
    feed step s (x :: xs) =
      ((feed step (step s x).1 xs).1, (step s x).2 ++ (feed step (step s x).1 xs).2) := rfl

theorem feed_append (step : σ → α → σ × List β) (s : σ) (xs ys : List α) :
    feed step s (xs ++ ys) =
      ((feed step (feed step s xs).1 ys).1, (feed step s xs).2 ++ (feed step (feed step s xs).1 ys).2) := by
  induction xs generalizing s with
  | nil => simp
  | cons x xs ih => simp only [List.cons_append, feed_cons, ih, List.append_assoc]

end Emulator
