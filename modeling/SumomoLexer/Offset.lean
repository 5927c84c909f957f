import SumomoLexer.Fault

/-! # Offsets

An offset counts characters. Whoever counts may have a bound that no offset reaches; a 64-bit word
has one, a count without bound has none. Sums and differences are checked: they give the exact result
or a fault, and never wrap around.
-/
namespace SumomoLexer.Offset
set_option autoImplicit false

/-- What offsets have to stay below, if anything. -/
abbrev Bound := Option Nat

def unbounded : Bound := none

def wordBound : Nat := Nat.pow 2 64

def word : Bound := some wordBound

def Fits (bound : Bound) (n : Nat) : Prop := ∀ b ∈ bound, n < b

instance (bound : Bound) (n : Nat) : Decidable (Fits bound n) :=
  inferInstanceAs (Decidable (∀ b ∈ bound, n < b))

def addWithin (bound : Bound) (a b : Nat) : Except Fault Nat :=
  if Fits bound (a + b) then .ok (a + b) else .error .sumOverflow

def add (a b : Nat) : Except Fault Nat := addWithin word a b

def sub (a b : Nat) : Except Fault Nat :=
  if b ≤ a then .ok (a - b) else .error .differenceOverflow

@[simp] theorem fits_unbounded (n : Nat) : Fits unbounded n := by
  simp [Fits, unbounded]

@[simp] theorem fits_word_iff (n : Nat) : Fits word n ↔ n < wordBound := by
  simp [Fits, word]

theorem Fits.mono {bound : Bound} {m n : Nat} (h : Fits bound n) (le : m ≤ n) : Fits bound m :=
  fun b hb => Nat.lt_of_le_of_lt le (h b hb)

theorem addWithin_eq_ok_iff {bound : Bound} {a b c : Nat} :
    addWithin bound a b = .ok c ↔ Fits bound (a + b) ∧ c = a + b := by
  by_cases h : Fits bound (a + b) <;> simp [addWithin, h, eq_comm]

theorem add_eq_ok_iff {a b c : Nat} : add a b = .ok c ↔ a + b < wordBound ∧ c = a + b := by
  rw [add, addWithin_eq_ok_iff, fits_word_iff]

theorem add_eq_error_iff {a b : Nat} {f : Fault} :
    add a b = .error f ↔ wordBound ≤ a + b ∧ f = .sumOverflow := by
  by_cases h : a + b < wordBound <;>
    simp [add, addWithin, h, eq_comm, Nat.not_le.mpr, Nat.not_lt.mp]

theorem sub_eq_ok_iff {a b c : Nat} : sub a b = .ok c ↔ b ≤ a ∧ c = a - b := by
  by_cases h : b ≤ a <;> simp [sub, h, eq_comm]

theorem sub_eq_error_iff {a b : Nat} {f : Fault} :
    sub a b = .error f ↔ a < b ∧ f = .differenceOverflow := by
  by_cases h : b ≤ a <;> simp [sub, h, eq_comm, Nat.not_lt.mpr, Nat.not_le.mp]

end SumomoLexer.Offset
