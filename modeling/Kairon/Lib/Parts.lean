/-
Kairon/Lib/Parts.lean

Computations that do not fail, and values that are decoded from a part of some bytes.

`Yields m P` says that a computation gives a result and that `P` holds of it; it goes through
sequences by one rule (`Yields.bind`).  `FromPart decode data value` says that an optional value
is missing or is what one part of the bytes stands for; it goes from a part to the whole
(`FromPart.within`), so that a reader of sections inside sections is followed outwards.
-/
import Kairon.Lib.Wire

namespace Kairon.Parts

open Wire (cut)

/-! ### Computations that do not fail -/

section Yields

variable {ε α β : Type} {m : Except ε α} {f : α → Except ε β} {P P' : α → Prop} {Q : β → Prop}

/-- The computation gives a result, which has the property. -/
def Yields (m : Except ε α) (P : α → Prop) : Prop := ∃ a, m = .ok a ∧ P a

theorem yields_pure {a : α} (h : P a) : Yields (pure a : Except ε α) P := ⟨a, rfl, h⟩

theorem Yields.bind (hm : Yields m P) (hf : ∀ a, P a → Yields (f a) Q) : Yields (m >>= f) Q := by
  obtain ⟨a, rfl, ha⟩ := hm
  exact hf a ha

theorem Yields.mono (hm : Yields m P) (h : ∀ a, P a → P' a) : Yields m P' := by
  obtain ⟨a, hrun, ha⟩ := hm
  exact ⟨a, hrun, h a ha⟩

end Yields

/-! ### Parts -/

section Parts

variable {α : Type} {data part chunk : List UInt8} {decode : List UInt8 → Option α}

/-- A slice is a part, wherever it would begin and end. -/
theorem cut_within (data : List UInt8) (start stop : ℕ) : cut data start stop <:+: data :=
  (List.take_prefix _ _).isInfix.trans (List.drop_suffix _ _).isInfix

/-- A value that is missing, or that a part of the bytes stands for. -/
def FromPart (decode : List UInt8 → Option α) (data : List UInt8) (value : Option α) : Prop :=
  value = none ∨ ∃ chunk, chunk <:+: data ∧ value = decode chunk

theorem fromPart_none : FromPart decode data none := .inl rfl

theorem fromPart_cut (start stop : ℕ) : FromPart decode data (decode (cut data start stop)) :=
  .inr ⟨_, cut_within data start stop, rfl⟩

theorem FromPart.within {value : Option α} (h : FromPart decode part value) (hpart : part <:+: data) :
    FromPart decode data value :=
  h.imp_right fun ⟨chunk, hchunk, heq⟩ => ⟨chunk, hchunk.trans hpart, heq⟩

end Parts

end Kairon.Parts
