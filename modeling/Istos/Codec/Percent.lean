import Istos.Codec.Hex
import Istos.Codec.Utf8

/-!
# Percent encoding

`quote` is that of Python's `urllib.parse`, with the defaults: letters, digits, `_.-~` and the slash
stay, every other byte of the UTF-8 form becomes three characters.
-/

namespace Percent

/-- A byte that stands for itself. -/
def safe (b : UInt8) : Bool :=
  (Char.ofNat b.toNat).isAlphanum || "_.-~/".toList.contains (Char.ofNat b.toNat)

/-- One byte. -/
def quoteByte (b : UInt8) : List Char :=
  if safe b then [Char.ofNat b.toNat] else ['%', Hex.upper (b.toNat / 16), Hex.upper (b.toNat % 16)]

/-- `quote(s)`. -/
def quote (s : String) : String := String.ofList ((Utf8.encode s).flatMap quoteByte)

/-- The characters that `quote` writes. -/
def IsQuoted (s : String) : Prop :=
  ∀ c ∈ s.toList, c.isAlphanum = true ∨ c ∈ "_.-~/%".toList

theorem safe_ascii {b : UInt8} (h : safe b = true) :
    b.toNat < 0x80 ∧ Char.ofNat b.toNat ≠ '%' := by
  have key : ∀ i : Fin 256, safe (.ofNat i.val) = true →
      i.val < 0x80 ∧ Char.ofNat i.val ≠ '%' := by decide +kernel
  have hb := key ⟨b.toNat, b.toNat_lt⟩
  rw [show UInt8.ofNat b.toNat = b by simp] at hb
  exact hb h

theorem isQuoted_quote (s : String) : IsQuoted (quote s) := by
  intro c hc
  rw [quote, String.toList_ofList, List.mem_flatMap] at hc
  obtain ⟨b, -, hc⟩ := hc
  have hb := b.toNat_lt
  unfold quoteByte at hc
  split at hc
  · rename_i hs
    obtain rfl := List.mem_singleton.mp hc
    unfold safe at hs
    rcases Bool.or_eq_true_iff.mp hs with ha | hm
    · exact Or.inl ha
    · right
      have hmore : "_.-~/%".toList = "_.-~/".toList ++ ['%'] := rfl
      rw [hmore]
      exact List.mem_append_left _ (List.contains_iff_mem.mp hm)
  · simp only [List.mem_cons, List.not_mem_nil, or_false] at hc
    rcases hc with rfl | rfl | rfl
    · exact Or.inr (by decide)
    · exact Or.inl (Hex.isAlphanum_upper (by omega))
    · exact Or.inl (Hex.isAlphanum_upper (by omega))

end Percent
