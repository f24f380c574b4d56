import DecisionWalk.Proofs.Spelling
import DecisionWalk.Proofs.Visiting

/-!
# The bytes that a parse has seen

A parse that succeeds has come to the end of its input: the end of the last fixed
range is compared with the length. A request fixes what lies between the end of
the file and the place it reads, with one exception: a lookahead at an offset
skips the bytes in between. A byte that no such lookahead skips was seen.
-/

set_option autoImplicit false

namespace DecisionWalk

open Walker Image

variable {K α : Type} {s t u : State K} {i m : Nat} {bs : Bytes}

/-- The request looks ahead to a place behind byte `i`, which lies behind all that is fixed. -/
def Request.PassesOver (i : Nat) {β : Type} (r : Request β) (s : State K) : Prop :=
  match r with
  | .lookUInt offset _ _ => s.image.size ≤ i ∧ i < s.image.cursor + offset
  | .lookBytes offset _ _ => s.image.size ≤ i ∧ i < s.image.cursor + offset
  | _ => False

structure Covered (i : Nat) (s : State K) : Prop where
  cursor : s.image.cursor ≤ s.image.size
  byte : i < s.image.size → s.image.fixedAt i = true

namespace Covered

theorem same (h : Covered i s) (him : t.image = s.image) : Covered i t :=
  ⟨by rw [him]; exact h.cursor, by rw [him]; exact h.byte⟩

theorem moved (h : Covered i s) {p : Nat} (hp : p ≤ s.image.size) : Covered i (s.movedTo p) :=
  ⟨hp, h.byte⟩

theorem spelled (h : Covered i s) (hs : Spells m bs s t) : Covered i t := by
  have hsize := hs.size
  constructor
  · omega
  · intro hi
    rw [hs.fixedAt, Bool.or_eq_true, decide_eq_true_eq]
    by_cases hold : i < s.image.size
    · exact Or.inl (h.byte hold)
    · have hcursor := h.cursor
      exact Or.inr (by omega)

theorem looked {offset : Nat} (h : Covered i s)
    (hover : ¬ (s.image.size ≤ i ∧ i < s.image.cursor + offset))
    (hs : Spells m bs (s.movedTo (s.image.cursor + offset)) u) : Covered i (u.back s) := by
  have hsize : u.image.size = max s.image.size u.image.cursor := hs.size
  have hcursor := h.cursor
  constructor
  · show s.image.cursor ≤ u.image.size
    omega
  · intro hi
    replace hi : i < u.image.size := hi
    show u.image.fixedAt i = true
    rw [hs.fixedAt, Bool.or_eq_true, decide_eq_true_eq]
    by_cases hold : i < s.image.size
    · exact Or.inl (h.byte hold)
    · right
      show s.image.cursor + offset ≤ i ∧ i < u.image.cursor
      omega

theorem fillGap {n : Nat} {a : Unit} (h : Covered i s) (hx : fillGap n s = .ok a t) :
    Covered i t := by
  induction n generalizing s with
  | zero =>
    cases hx
    exact h
  | succ n ih =>
    obtain ⟨v, u, h1, h2⟩ := bind_ok.1 hx
    obtain ⟨bs, -, hspells⟩ := readUIntFull_spells h1
    exact ih (h.spelled hspells) h2

theorem seek {p : Nat} {a : Unit} (h : Covered i s) (hx : seek p s = .ok a t) : Covered i t := by
  rcases seek_cases hx with ⟨hp, rfl⟩ | ⟨hp, u, hfill, rfl⟩
  · exact h.moved hp
  · have hgap : Covered i u := (h.moved (Nat.le_refl _)).fillGap hfill
    have hcursor : u.image.cursor = s.image.size + (p - s.image.size) := fillGap_cursor hfill
    have hle := hgap.cursor
    exact hgap.moved (by omega)

theorem patch {field : Reserved} {v : Nat} {a : Unit} (h : Covered i s)
    (hx : patch field v s = .ok a t) : Covered i t := by
  obtain ⟨bs, there, u, -, hthere, hemit, hback⟩ := patch_steps hx
  exact ((h.seek hthere).spelled (.emits hemit)).seek hback

theorem endOfFile {threshold : Nat} {b : Bool} (h : Covered i s)
    (hx : endOfFile threshold s = .ok b t) : Covered i t := by
  obtain ⟨start, s1, h1, hx⟩ := bind_ok.1 hx
  obtain ⟨forced, s2, h2, hx⟩ := bind_ok.1 hx
  obtain ⟨coin, s3, h3, hx⟩ := bind_ok.1 hx
  obtain ⟨_, s4, h4, hx⟩ := bind_ok.1 hx
  cases h1
  cases h4
  cases hx
  have hknown : s2 = s := by
    rw [knownEnd] at h2
    split at h2 <;> cases h2 <;> rfl
  obtain ⟨e, -, rfl⟩ := Costs.coin _ _ _ _ h3
  rw [hknown]
  exact h.same rfl

/-- What a request leaves open, a lookahead skips. -/
theorem answer {β : Type} {r : Request β} {b : β} (h : Covered i s) (hover : ¬ r.PassesOver i s)
    (hx : r.answer s = .ok b t) : Covered i t := by
  cases r with
  | uint width =>
    obtain ⟨bs, -, hspells⟩ := readUInt_spells hx
    exact h.spelled hspells
  | uintFull width =>
    obtain ⟨bs, -, hspells⟩ := readUIntFull_spells hx
    exact h.spelled hspells
  | uintKnown width known =>
    obtain ⟨bs, -, hspells⟩ := readUIntKnown_spells hx
    exact h.spelled hspells
  | bytes length => exact h.spelled (readBytes_spells hx)
  | bytesKnown length known => exact h.spelled (readBytesKnown_spells hx).2
  | string length => exact h.spelled (readString_spells hx)
  | cstring most => exact h.spelled (readCString_spells hx)
  | count most derived =>
    obtain ⟨e, -, rfl⟩ := Costs.decideCount most derived _ _ _ hx
    exact h.same rfl
  | seek position => exact h.seek hx
  | skip n => exact h.seek hx
  | reserve width =>
    obtain ⟨-, -, bs, -, hspells⟩ := reserve_spells hx
    exact h.spelled hspells
  | patch field value => exact h.patch hx
  | endOfFile threshold => exact h.endOfFile hx
  | lookUInt offset width known =>
    obtain ⟨u, hread, rfl⟩ := ahead_ok hx
    obtain ⟨bs, -, hspells⟩ := readUIntKnown_spells hread
    exact h.looked hover hspells
  | lookBytes offset length known =>
    obtain ⟨u, hread, rfl⟩ := ahead_ok hx
    exact h.looked hover (readBytesKnown_spells hread).2
  | checksum32 start stop =>
    obtain ⟨_, _, hslice, hx⟩ := bind_ok.1 hx
    cases hx
    exact h.same (by rw [(fixedSlice_ok hslice).2.2.2.1])
  | checksum16 start stop =>
    obtain ⟨_, _, hslice, hx⟩ := bind_ok.1 hx
    cases hx
    exact h.same (by rw [(fixedSlice_ok hslice).2.2.2.1])
  | emit data => exact h.spelled (.emits (emit_emits hx))
  | setEvil allowed => cases hx; exact h.same rfl
  | setEndian order => cases hx; exact h.same rfl
  | tell => cases hx; exact h
  | fileSize => cases hx; exact h
  | remaining => cases hx; exact h
  | note label value => cases hx; exact h.same rfl

end Covered

theorem Onward.past (h : Onward s t) : ∃ d : Bytes, t.stream.past = s.stream.past ++ d := by
  obtain ⟨d, hd⟩ := h.consumed
  refine ⟨d, Array.ext' ?_⟩
  rw [Array.toList_appendList]
  exact hd.symm

theorem Bond.Leads.alone {B : Bond K} {x : Walker K α} (hq : Quiet x)
    (hpair : ∀ l f, ¬ B.pair l f) (hgiven : ∀ l, B.given l)
    (hx : ∀ a t, B.lead s → x s = .ok a t →
      B.lead t ∧ ∃ d : Bytes, t.stream.past = s.stream.past ++ d) : B.Leads x s := by
  apply quietly hq
  intro a t hs h
  obtain ⟨ht, d, hd⟩ := hx a t hs h
  exact ⟨ht, fun _ => hgiven s, d, ⟨d, hd, Iff.rfl, fun _ => rfl⟩,
    fun f hp => absurd hp (hpair s f)⟩

variable [DecidableEq K]

def covering (i : Nat) : Lockstep K where
  lead := Covered i
  given _ := True
  pair _ _ := False
  exact := False
  admits r s := ¬ r.PassesOver i s
  asks r s hover := by
    apply Bond.Leads.alone (.answer r) (fun _ _ h => h) fun _ => trivial
    intro b t hs h
    exact ⟨hs.answer hover h, (after_ok h ▸ (Orderly.answer r s).passes).onward.past⟩
  opens name kind s := by
    apply Bond.Leads.alone (.openScope name kind) (fun _ _ h => h) fun _ => trivial
    intro depth t hs h
    obtain ⟨watches, rfl⟩ := openScope_opened h
    exact ⟨hs.same rfl, [], by simp⟩
  closes depth s := by
    apply Bond.Leads.alone (.closeScope depth) (fun _ _ h => h) fun _ => trivial
    intro _ t hs h
    obtain ⟨watches, stream, hpast, rfl⟩ := closeScope_closed h
    exact ⟨hs.same rfl, [], by simp [hpast]⟩
  evil _ _ hp := hp.elim
  setEvil _ _ _ hp := hp.elim
  lead_setEvil _ _ h := h.same rfl
  given_setEvil _ _ := Iff.rfl

namespace Grammar

theorem parse_reaches {g : Grammar K Unit} {limits : Limits} {input : Bytes} {w : Walk K}
    (h : g.parse limits input = .ok w) : ∃ (o : Ending Unit) (t : State K),
      g.run (State.parsing limits input) = o.inState t ∧
        g.run.after (State.parsing limits input) = t ∧ input.length ≤ t.image.size := by
  rw [parse_run] at h
  obtain ⟨ws, hrun⟩ := outcome_ok h
  obtain ⟨o, t, hrun, -, hfinish⟩ := concluded hrun
  have hafter : g.run.after (State.parsing limits input) = t := by
    rw [after, hrun]
    cases o <;> rfl
  refine ⟨o, t, hrun, hafter, ?_⟩
  have hkept : Kept (State.parsing limits input) t := hafter ▸ g.after_kept _
  have hcoherent := hkept.coherent (coherent_forInput _ input)
  have hbytes : t.image.bytes = input.toArray := hkept.input rfl
  have hmode : t.mode = .parse := hkept.mode
  obtain ⟨hsize, -⟩ := (State.finish_iff _ _).1 hfinish
  rw [hcoherent.input, if_pos hmode, hbytes] at hsize
  simpa using hsize

/-- Every byte of an input that parses was fixed on the way unless a lookahead passed over it.
Where none did, no other input of the same length has the same fixed bytes. -/
theorem parse_covers {g : Grammar K Unit} {limits : Limits} {input : Bytes} {w : Walk K}
    (h : g.parse limits input = .ok w) :
    (∀ i, i < input.length →
      g.Always (fun r s => ¬ r.PassesOver i s) (State.parsing limits input) →
        (g.run.after (State.parsing limits input)).image.fixedAt i = true) ∧
    ((∀ i, i < input.length →
      g.Always (fun r s => ¬ r.PassesOver i s) (State.parsing limits input)) →
      ∀ other : Bytes, other.length = input.length →
        (∀ i, (g.run.after (State.parsing limits input)).image.fixedAt i = true →
          other[i]? = input[i]?) → other = input) := by
  obtain ⟨o, t, hrun, hafter, hsize⟩ := parse_reaches h
  rw [hafter]
  have hcovers : ∀ i, i < input.length →
      g.Always (fun r s => ¬ r.PassesOver i s) (State.parsing limits input) →
        t.image.fixedAt i = true := by
    intro i hi hover
    have hstart : Covered i (State.parsing limits input : State K) :=
      ⟨Nat.le_refl 0, fun h => absurd h (Nat.not_lt_zero i)⟩
    obtain ⟨hcovered, -⟩ := (covering i).run_leads g _ hover o t hstart hrun
    exact hcovered.byte (Nat.lt_of_lt_of_le hi hsize)
  refine ⟨hcovers, ?_⟩
  intro hover other hlength hsame
  apply List.ext_getElem?
  intro i
  by_cases hi : i < input.length
  · exact hsame i (hcovers i hi (hover i hi))
  · rw [List.getElem?_eq_none (by omega), List.getElem?_eq_none (by omega)]

def rereadTag : Grammar Unit Unit :=
  .ask (.lookBytes 0 2 [[7, 9], [8, 9]]) fun _ => .ask (.bytes 2) fun _ => .done ()

theorem parse_covers_reread : ∃ w, rereadTag.parse {} [8, 9] = .ok w ∧
    (rereadTag.run.after (State.parsing {} [8, 9])).image.fixedAt 1 = true ∧
    ∀ other : Bytes, other.length = 2 →
      (∀ i, (rereadTag.run.after (State.parsing {} [8, 9])).image.fixedAt i = true →
        other[i]? = ([8, 9] : Bytes)[i]?) → other = [8, 9] := by
  have hrun : (rereadTag.parse {} [8, 9]).toOption.any (fun _ => true) = true := by decide +kernel
  obtain ⟨w, h, -⟩ := ok_of_any hrun
  have hover : ∀ i, rereadTag.Always (fun r s => ¬ r.PassesOver i s) (State.parsing {} [8, 9]) := by
    intro i
    refine ⟨?_, fun _ _ _ => ⟨id, fun _ _ _ => trivial⟩⟩
    rintro ⟨-, hi⟩
    exact absurd hi (Nat.not_lt_zero i)
  obtain ⟨hcovers, hsame⟩ := parse_covers h
  exact ⟨w, h, hcovers 1 (by decide) (hover 1), hsame fun i _ => hover i⟩

def skippedByte : Grammar Unit Unit := .ask (.lookBytes 1 1 [[7]]) fun _ => .done ()

/-- Two inputs that differ in the byte passed over parse to the same decisions. -/
theorem parse_covers_not_skipped :
    ∃ w w', skippedByte.parse {} [0, 7] = .ok w ∧ skippedByte.parse {} [1, 7] = .ok w' ∧
      w.decisions = w'.decisions ∧
      (skippedByte.run.after (State.parsing {} [0, 7])).image.fixedAt 0 = false ∧
      (skippedByte.run.after (State.parsing {} [1, 7])).image.fixedAt 0 = false := by
  have hrun : (skippedByte.parse {} [0, 7]).toOption.any (fun w => w.decisions == [1]) = true := by
    decide +kernel
  have hrun' : (skippedByte.parse {} [1, 7]).toOption.any (fun w => w.decisions == [1]) = true := by
    decide +kernel
  obtain ⟨w, h, hw⟩ := ok_of_any hrun
  obtain ⟨w', h', hw'⟩ := ok_of_any hrun'
  refine ⟨w, w', h, h', ?_, by decide +kernel, by decide +kernel⟩
  rw [eq_of_beq hw, eq_of_beq hw']

end Grammar

end DecisionWalk
