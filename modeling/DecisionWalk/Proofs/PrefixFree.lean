import DecisionWalk.Proofs.PngPieces
import DecisionWalk.Proofs.RiffAssembly

/-!
# No file is the beginning of another one

A PNG ends behind its last chunk, and the bytes of a chunk tell where it ends. A
RIFF file says at its start how long it is. So of two files that a parse accepts
neither can go on where the other one ends, however odd their fields may be.
-/

set_option autoImplicit false

namespace DecisionWalk

variable {K : Type} [DecidableEq K]

def Grammar.Accepts (g : Grammar K Unit) (limits : Limits) (input : Bytes) : Prop :=
  ∃ w, g.parse limits input = .ok w

structure PrefixFree (accepts : Bytes → Prop) : Prop where
  extended : ∀ x y, accepts x → y ≠ [] → ¬ accepts (x ++ y)
  truncated : ∀ x n, accepts x → n < x.length → ¬ accepts (x.take n)

theorem PrefixFree.of_ends {accepts : Bytes → Prop}
    (h : ∀ x y, accepts x → accepts (x ++ y) → y = []) : PrefixFree accepts where
  extended x y hx hy hxy := hy (h x y hx hxy)
  truncated x n hx hn htake := by
    have hnil : x.drop n = [] := h (x.take n) (x.drop n) htake (by rwa [List.take_append_drop])
    exact absurd (List.drop_eq_nil_iff.1 hnil) (Nat.not_le.2 hn)

namespace Png

theorem Dissected.chain {limits : Limits} {input : Bytes} {w : Walk Kind}
    (h : Dissected limits input w) : Chain limits.allowEvil .start (pieces w) :=
  chain_of_fits h.pieces_fit h.inOrder

theorem ends_alone {limits : Limits} {x y : Bytes} (hx : png.grammar.Accepts limits x)
    (hxy : png.grammar.Accepts limits (x ++ y)) : y = [] := by
  obtain ⟨w, hw⟩ := hx
  obtain ⟨w', hw'⟩ := hxy
  have hd := parse_dissected hw
  have hd' := parse_dissected hw'
  have hbytes : (pieces w).flatMap Piece.bytes = x := hd.bytes.trans hd.file
  have hbytes' : (pieces w').flatMap Piece.bytes = x ++ y := hd'.bytes.trans hd'.file
  have hsame : pieces w = pieces w' := by
    apply hd.chain.unique (u := y) (v := []) hd'.chain
    rw [hbytes, hbytes', List.append_nil]
  rw [← hsame, hbytes] at hbytes'
  exact List.self_eq_append_right.1 hbytes'

end Png

namespace Riff

theorem whole_ends {form form' y : Bytes} {ps qs : List Piece}
    (hsmall : form.length + (ps.flatMap Piece.bytes).length < 2 ^ 32)
    (hsmall' : form'.length + (qs.flatMap Piece.bytes).length < 2 ^ 32)
    (h : whole form ps ++ y = whole form' qs) : y = [] := by
  have hlength := congrArg List.length h
  simp only [whole, List.append_assoc] at h
  have hsize := (List.append_inj (List.append_cancel_left h) (by simp)).1
  have hsame := congrArg Endian.little.decode hsize
  rw [decode_le32 hsmall, decode_le32 hsmall'] at hsame
  simp only [whole, List.length_append, le32_length] at hlength
  exact List.length_eq_zero_iff.1 (by omega)

theorem ends_alone {limits : Limits} {x y : Bytes} (hx : riff.grammar.Accepts limits x)
    (hxy : riff.grammar.Accepts limits (x ++ y)) : y = [] := by
  obtain ⟨w, hw⟩ := hx
  obtain ⟨w', hw'⟩ := hxy
  obtain ⟨hfile, form, opening, ps, hd⟩ := parse_dissected hw
  obtain ⟨hfile', form', opening', qs, hd'⟩ := parse_dissected hw'
  apply whole_ends hd.small hd'.small
  rw [← hd.file, ← hd'.file, hfile, hfile']

end Riff

/-- Under any limits, and with evil values allowed or not, no file of either format goes on where
another one ends: whatever is put behind an accepted file or cut off its end, it is rejected. -/
theorem formats_prefix_free (limits : Limits) :
    PrefixFree (png.grammar.Accepts limits) ∧ PrefixFree (riff.grammar.Accepts limits) :=
  ⟨.of_ends fun _ _ => Png.ends_alone, .of_ends fun _ _ => Riff.ends_alone⟩

end DecisionWalk
