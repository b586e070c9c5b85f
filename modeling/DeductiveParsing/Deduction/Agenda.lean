/-
Agendas: the positions that wait to be expanded, first in, first out, none of them twice.

* `Agenda.add`: a position at the end, unless it waits already;
* `Agenda.next?`: the first position and the others.
-/
import Std.Data.HashSet

namespace DeductiveParsing

/-- Waiting positions: those in `front`, then those in `back` from its end. The set `waiting` holds
the same positions. -/
structure Agenda where
  front : List Nat
  back : List Nat
  waiting : Std.HashSet Nat

namespace Agenda

/-- An agenda on which nothing waits. -/
def empty : Agenda := ⟨[], [], ∅⟩

/-- The waiting positions in order. -/
def toList (a : Agenda) : List Nat := a.front ++ a.back.reverse

/-- Puts a position at the end, unless it waits already. -/
def add (a : Agenda) (i : Nat) : Agenda :=
  if a.waiting.contains i then a else ⟨a.front, i :: a.back, a.waiting.insert i⟩

/-- The first position and the agenda without it. -/
def next? (a : Agenda) : Option (Nat × Agenda) :=
  match a.front with
  | i :: rest => some (i, ⟨rest, a.back, a.waiting.erase i⟩)
  | [] =>
    match a.back.reverse with
    | i :: rest => some (i, ⟨rest, [], a.waiting.erase i⟩)
    | [] => none

end Agenda

end DeductiveParsing
