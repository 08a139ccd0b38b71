import Harvest.Proofs.Include.Groups
import Harvest.Proofs.Parser.Following
import Harvest.Proofs.Text.Utf8
import Mathlib.Data.Nat.Digits.Defs
import Mathlib.Data.Set.Card
import Mathlib.Order.Interval.Finset.Nat

/-!
# Readable paths

A path that leads to a file has a bounded number of bytes, so that there are finitely many of them.
Read as a number, the bytes of a path with a one behind them say which path it is; this bounds the
number of readable paths, and with it how deep files that include each other can nest.
-/

namespace Harvest

namespace Path

/-- The bytes of a path's text. -/
def bytes (p : Path) : List Nat := (Text.Utf8.encode p.text.toList).map UInt8.toNat

/-- The bytes as digits of a number; the one behind them keeps the last ones apart. -/
def code (p : Path) : Nat := Nat.ofDigits 256 (p.bytes ++ [1])

theorem bytes_injective : Function.Injective bytes := by
  intro p q h
  have hencode := List.map_injective_iff.2 (fun _ _ ↦ UInt8.toNat_inj.1) h
  have hchars : p.text.toList = q.text.toList := by
    rw [← Text.Utf8.decode_encode p.text.toList, hencode, Text.Utf8.decode_encode]
  cases p
  cases q
  exact congrArg Path.mk (String.toList_injective hchars)

theorem lt_of_mem_digits (p : Path) : ∀ d ∈ p.bytes ++ [1], d < 256 := by
  intro d hd
  rcases List.mem_append.1 hd with hd | hd
  · obtain ⟨byte, -, rfl⟩ := List.mem_map.1 hd
    exact UInt8.toNat_lt byte
  · rw [List.mem_singleton.1 hd]
    decide

theorem code_injective : Function.Injective code := by
  intro p q h
  have hdigits : ∀ r : Path, Nat.digits 256 r.code = r.bytes ++ [1] := fun r ↦
    Nat.digits_ofDigits 256 (by decide) _ r.lt_of_mem_digits (by simp)
  apply bytes_injective
  apply (List.append_left_inj [1]).1
  rw [← hdigits, h, hdigits]

theorem code_lt {p : Path} {n : Nat} (h : p.bytes.length ≤ n) : p.code < 256 ^ (n + 1) := by
  calc p.code < 256 ^ (p.bytes ++ [1]).length :=
        Nat.ofDigits_lt_base_pow_length (by decide) p.lt_of_mem_digits
    _ ≤ 256 ^ (n + 1) := Nat.pow_le_pow_right (by decide) (by simpa using h)

theorem code_pos (p : Path) : 0 < p.code := by
  rw [code, Nat.ofDigits_append]
  simp

end Path

namespace FileTree

variable {t : FileTree} {path : Path} {stack : List Path}

/-- The cleaned paths that lead to files. -/
def readable (t : FileTree) : Set Path :=
  { path | (∃ p : Path, p.clean = path) ∧ ∃ text, t.readText path = .ok text }

theorem length_bytes_le (h : path ∈ t.readable) : path.bytes.length ≤ maxLength := by
  obtain ⟨-, text, htext⟩ := h
  rw [Path.bytes, List.length_map]
  by_contra hlong
  have hrefusal : ∃ e, refusal? path = some e := by
    unfold refusal?
    split
    · exact ⟨_, rfl⟩
    · exact ⟨_, if_pos (Nat.lt_of_not_le hlong)⟩
  obtain ⟨e, hrefusal⟩ := hrefusal
  rw [readText, read, resolve, hrefusal] at htext
  cases htext

theorem code_mem (h : path ∈ t.readable) :
    path.code ∈ Finset.Ioo 0 (256 ^ (maxLength + 1)) :=
  Finset.mem_Ioo.2 ⟨path.code_pos, Path.code_lt (length_bytes_le h)⟩

theorem finite_readable (t : FileTree) : t.readable.Finite :=
  Set.Finite.of_injOn (fun _ h ↦ code_mem h) Path.code_injective.injOn (Finset.finite_toSet _)

theorem ncard_readable_lt (t : FileTree) : t.readable.ncard < Parser.depthLimit := by
  have hpos : 0 < 256 ^ (maxLength + 1) := Nat.pow_pos (by decide)
  have hpow (n : Nat) : Nat.pow 256 n = 256 ^ n := rfl
  unfold Parser.depthLimit
  rw [hpow]
  calc t.readable.ncard ≤ (Finset.Ioo 0 (256 ^ (maxLength + 1)) : Set Nat).ncard :=
        Set.ncard_le_ncard_of_injOn Path.code (fun _ h ↦ code_mem h) Path.code_injective.injOn
    _ = 256 ^ (maxLength + 1) - 0 - 1 := by rw [Set.ncard_coe_finset, Nat.card_Ioo]
    _ < 256 ^ (maxLength + 1) := by
        generalize 256 ^ (maxLength + 1) = n at hpos ⊢
        omega

/-- The readable paths with other parts than those on a stack. -/
def unread (t : FileTree) (stack : List Path) : Set Path :=
  { path ∈ t.readable | ∀ q ∈ stack, path.same q = false }

/-- Each path that is read further leaves fewer of them. -/
theorem ncard_unread_lt (h : path ∈ t.unread stack) :
    (t.unread (stack ++ [path])).ncard < (t.unread stack).ncard := by
  apply Set.ncard_lt_ncard _ (t.finite_readable.subset fun _ h ↦ h.1)
  refine ⟨fun q hq ↦ ⟨hq.1, fun r hr ↦ hq.2 r (List.mem_append_left _ hr)⟩, fun hsub ↦ ?_⟩
  have hself := (hsub h).2 path (List.mem_append_right _ (List.mem_singleton_self _))
  rw [Path.same_self] at hself
  cases hself

theorem ncard_unread_le (t : FileTree) (stack : List Path) :
    (t.unread stack).ncard ≤ t.readable.ncard :=
  Set.ncard_le_ncard (fun _ h ↦ h.1) t.finite_readable

end FileTree

end Harvest
