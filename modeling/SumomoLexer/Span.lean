import SumomoLexer.Fault

/-! # Spans

A span is a half-open range of offsets, never running backwards. It may lie outside a given text;
looking it up there is then a fault.
-/
namespace SumomoLexer
set_option autoImplicit false

structure Span where
  start : Nat
  stop : Nat
  start_le_stop : start ≤ stop
deriving DecidableEq, Repr

namespace Span

def make (start stop : Nat) : Except Fault Span :=
  if h : start ≤ stop then .ok ⟨start, stop, h⟩ else .error .reversedSpan

def empty (position : Nat) : Span := ⟨position, position, Nat.le_refl position⟩

def length (s : Span) : Nat := s.stop - s.start

def slice (s : Span) (text : Array Char) : Except Fault String :=
  if s.stop ≤ text.size then .ok (String.ofList (text.extract s.start s.stop).toList)
  else .error .outsideText

def text (s : Span) : String := s!"{s.start}..{s.stop}"

theorem make_eq_ok_iff {start stop : Nat} {s : Span} :
    make start stop = .ok s ↔ s.start = start ∧ s.stop = stop := by
  unfold make
  split
  · rename_i h
    constructor
    · intro e
      cases e
      exact ⟨rfl, rfl⟩
    · rintro ⟨rfl, rfl⟩
      rfl
  · rename_i h
    constructor
    · intro e
      cases e
    · rintro ⟨rfl, rfl⟩
      exact absurd s.start_le_stop h

theorem make_eq_error_iff {start stop : Nat} {f : Fault} :
    make start stop = .error f ↔ stop < start ∧ f = .reversedSpan := by
  by_cases h : start ≤ stop <;> simp [make, h, eq_comm, Nat.not_lt.mpr, Nat.not_le.mp]

theorem slice_eq_ok_iff {s : Span} {text : Array Char} {value : String} :
    s.slice text = .ok value ↔
      s.stop ≤ text.size ∧ value = String.ofList (text.extract s.start s.stop).toList := by
  by_cases h : s.stop ≤ text.size <;> simp [slice, h, eq_comm]

@[simp] theorem length_empty (position : Nat) : (empty position).length = 0 := by
  simp [length, empty]

end Span
end SumomoLexer
