import DecisionWalk.Proofs.Sparing

/-!
# What a read leaves behind

Whatever a read is for, if it succeeds it has recorded some decisions and then
emitted the bytes of its value at the cursor. The bytes are fixed from there on,
and the cursor stands behind them.
-/

set_option autoImplicit false

namespace DecisionWalk

open Walker Image

variable {K α β : Type} {s t u : State K} {m n : Nat} {bs : Bytes}

def Costs (n : Nat) (x : Walker K α) : Prop :=
  ∀ s a t, x s = .ok a t → ∃ e : Bytes, n ≤ e.length ∧ t = s.recorded e

namespace Costs

theorem draws {x : Walker K α} (hx : Draws True x) : Costs 0 x := by
  intro s a t h
  obtain ⟨e, he⟩ := hx.after s
  exact ⟨e, Nat.zero_le _, (after_ok h).symm.trans he⟩

theorem bind {x : Walker K α} {f : α → Walker K β} (hx : Costs n x)
    (hf : ∀ a, Draws True (f a)) : Costs n (x >>= f) := by
  intro s b t h
  obtain ⟨a, u, h1, h2⟩ := bind_ok.1 h
  obtain ⟨e, he, rfl⟩ := hx s a u h1
  obtain ⟨d, -, rfl⟩ := draws (hf a) _ b t h2
  refine ⟨e ++ d, ?_, State.recorded_recorded _ _ _⟩
  rw [List.length_append]
  omega

theorem failing {x : Walker K α} (h : ∀ s a t, x s ≠ .ok a t) : Costs n x :=
  fun s a t hx => absurd hx (h s a t)

theorem takeDecision (n : Nat) : Costs n (takeDecision n : Walker K Nat) := by
  intro s v t h
  by_cases hn : n ≤ s.stream.ahead.length
  · have hlen : (s.stream.ahead.take n).length = n := List.length_take_of_le hn
    have hrun := take_run (s := s) _ _ (List.take_append_drop n s.stream.ahead).symm
    rw [hlen, h] at hrun
    cases hrun
    exact ⟨s.stream.ahead.take n, Nat.le_of_eq hlen.symm, rfl⟩
  · have hpeek : s.stream.peek? n = none := if_pos (by rw [List.length_take]; omega)
    rw [Walker.takeDecision, hpeek] at h
    cases h

theorem putDecision (v n : Nat) : Costs n (putDecision v n : Walker K Unit) := by
  intro s a t h
  by_cases hc : s.stream.position + n ≤ s.stream.capacity
  · rw [put_run v n hc] at h
    cases h
    exact ⟨leBytes n v, Nat.le_of_eq (length_leBytes n v).symm, rfl⟩
  · rw [Walker.putDecision, if_neg hc] at h
    cases h

/-- A coin takes a decision in either direction. -/
theorem coin (forced : Option Nat) : Costs 1 (decideBelow 256 forced : Walker K Nat) := by
  have hw : Sampler.decisionWidth 256 = 1 := Sampler.decisionWidth_eq_one _ (by decide) (by decide)
  cases forced with
  | none =>
    have hrun : decideBelow (K := K) 256 none =
        (Walker.takeDecision 1 >>= fun d => pure (d % 256)) := by
      simp only [decideBelow, hw, Nat.one_ne_zero, if_false]
    rw [hrun]
    exact (takeDecision 1).bind fun _ => .pure _
  | some v =>
    by_cases hv : v < 256
    · have hrun : decideBelow (K := K) 256 (some v) =
          (Walker.putDecision v 1 >>= fun _ => pure v) := by
        simp only [decideBelow, hw, Nat.one_ne_zero, if_false, if_pos hv]
      rw [hrun]
      exact (putDecision v 1).bind fun _ => .pure _
    · have hrun : decideBelow (K := K) 256 (some v) = throw (.defect .choice) := by
        simp only [decideBelow, hw, Nat.one_ne_zero, if_false, if_neg hv]
      rw [hrun]
      exact failing fun _ _ _ => throw_not_ok _ _ _ _

theorem chooseKnown [DecidableEq α] (known : List α) (found : Option α)
    {draw : Option α → Walker K α} (hd : Draws True (draw found)) :
    Costs 1 (chooseKnown found known draw) := by
  by_cases hk : known = []
  · rw [hk, chooseKnown_empty]
    exact failing fun _ _ _ => violation_not_ok _ _ _ _
  · cases found with
    | none =>
      rw [chooseKnown_none known draw hk]
      exact (coin none).bind fun _ => .get (fun _ => .ite hd (.drawIndexed known fun _ => trivial))
        fun _ _ h => by rw [h]
    | some v =>
      by_cases hv : v ∈ known
      · rw [chooseKnown_known hv]
        exact (putDecision _ 1).bind fun _ => .drawIndexed known fun _ => trivial
      · rw [chooseKnown_unknown hk hv]
        intro s a t h
        rw [get_bind] at h
        cases he : s.evil.allowed with
        | true =>
          rw [he, if_pos rfl] at h
          exact ((putDecision _ 1).bind fun _ => hd) s a t h
        | false =>
          rw [he, if_neg Bool.false_ne_true] at h
          exact absurd h (violation_not_ok _ _ _ _)

theorem decideCount (most : Nat) (derived : Option Nat) :
    Costs 0 (decideCount most derived : Walker K Nat) := by
  have hrest : Costs 0 (do
      let value ← Walker.sampleSmall 8 derived
      pure (value % (most + 1)) : Walker K Nat) :=
    draws ((Draws.sampleSmall 8 fun _ => trivial).bind fun _ => .pure _)
  have hrefused : ∀ (v : Violation) (f : PUnit → Walker K Nat), Costs 0 (violation v >>= f) := by
    intro v f
    apply failing
    intro s a t h
    obtain ⟨_, _, h, -⟩ := bind_ok.1 h
    exact violation_not_ok _ _ _ _ h
  intro s a t h
  cases derived with
  | none =>
    rw [Walker.decideCount] at h
    replace h := (get_bind _ s).symm.trans h
    split at h
    · exact hrefused _ _ s a t h
    · exact hrest s a t h
  | some v =>
    rw [Walker.decideCount] at h
    dsimp only at h
    split at h
    · exact hrefused _ _ s a t h
    · exact hrest s a t h

end Costs

/-- What a successful emission leaves, in either mode. -/
theorem Walker.emit_emits {a : Unit} (h : emit bs s = .ok a t) : Emits bs s t := by
  rw [emit] at h
  split at h
  case h_1 hm =>
    split at h
    · cases h
      exact ⟨store_writes s.image bs, rfl, fun hp => absurd (hm.symm.trans hp) (by decide)⟩
    · cases h
  case h_2 hm =>
    split at h
    · exact absurd h (violation_not_ok _ _ _ _)
    · split at h
      · rename_i hslice
        cases h
        have hst := slice_stands hslice
        exact ⟨mark_writes s.image bs hst, rfl, fun _ => mark_bytes _ _ _ hst.1⟩
      · exact absurd h (violation_not_ok _ _ _ _)

def Spells (m : Nat) (bs : Bytes) (s t : State K) : Prop :=
  ∃ e : Bytes, m ≤ e.length ∧ Emits bs (s.recorded e) t

namespace Spells

theorem emits (h : Emits bs s t) : Spells 0 bs s t :=
  ⟨[], Nat.zero_le _, by rw [State.recorded_nil]; exact h⟩

theorem position (h : Spells m bs s t) : s.stream.position + m ≤ t.stream.position := by
  obtain ⟨e, he, hemit⟩ := h
  have hpos : t.stream.position = s.stream.position + e.length := by
    rw [hemit.rest]
    exact Stream.recorded_position _ _
  omega

theorem cursor (h : Spells m bs s t) : t.image.cursor = s.image.cursor + bs.length := by
  obtain ⟨e, -, hemit⟩ := h
  exact hemit.writes.cursor

theorem size (h : Spells m bs s t) : t.image.size = max s.image.size t.image.cursor := by
  rw [h.cursor]
  obtain ⟨e, -, hemit⟩ := h
  exact hemit.writes.size

theorem fixedAt (h : Spells m bs s t) (i : Nat) : t.image.fixedAt i =
    (s.image.fixedAt i || decide (s.image.cursor ≤ i ∧ i < t.image.cursor)) := by
  rw [h.cursor]
  obtain ⟨e, -, hemit⟩ := h
  exact hemit.writes.fixedAt i

theorem tracker (h : Spells m bs s t) :
    t.tracker = s.tracker.touch ⟨s.image.cursor, t.image.cursor⟩ := by
  rw [h.cursor]
  obtain ⟨e, -, hemit⟩ := h
  rw [hemit.rest]
  rfl

end Spells

/-- The reads differ in how they find and draw their value. -/
theorem Field.read_spells {f : Field K α} {v : α} (hfind : ∀ s r t, f.find s = .ok r t → t = s)
    (hdraw : ∀ r, Costs m (f.draw r)) (h : f.read s = .ok v t) :
    ∃ e, Spells m (f.encode e v) s t := by
  obtain ⟨r, s1, h1, h⟩ := bind_ok.1 h
  obtain ⟨w, s2, h2, h⟩ := bind_ok.1 h
  rw [get_bind] at h
  obtain ⟨a, s3, h3, h⟩ := bind_ok.1 h
  cases h
  obtain rfl := hfind s r s1 h1
  obtain ⟨e, he, rfl⟩ := hdraw r _ v s2 h2
  exact ⟨_, e, he, emit_emits h3⟩

theorem Field.string_state {draw : Option Bytes → Walker K Bytes} {r : Option Bytes}
    (h : (Field.string n draw).find s = .ok r t) : t = s := by
  rw [string_find] at h
  obtain ⟨p, u, htell, hfound⟩ := bind_ok.1 h
  cases htell
  exact found_state hfound

namespace Walker

theorem checkWidth_ok {width : Nat} {a : Unit} (h : checkWidth width s = .ok a t) :
    1 ≤ width ∧ width ≤ 8 := by
  by_cases hw : 1 ≤ width ∧ width ≤ 8
  · exact hw
  · rw [checkWidth, if_neg hw] at h
    exact absurd h (violation_not_ok _ _ _ _)

theorem integer_spells {width v : Nat} {draw : Option Nat → Walker K Nat}
    (hdraw : ∀ r, Costs m (draw r)) (h : (Field.integer width draw).read s = .ok v t) :
    ∃ bs, bs.length = width ∧ Spells m bs s t := by
  obtain ⟨e, hspells⟩ := Field.read_spells (fun _ _ _ => foundInteger_state) hdraw h
  exact ⟨_, Endian.length_encode _ _ _, hspells⟩

theorem readUInt_spells {width v : Nat} (h : readUInt width s = .ok v t) :
    ∃ bs, bs.length = width ∧ Spells 0 bs s t := by
  obtain ⟨_, _, hw, -⟩ := bind_ok.1 h
  obtain ⟨h1, h8⟩ := checkWidth_ok hw
  rw [readUInt_eq width h1 h8] at h
  exact integer_spells (fun _ => .draws (.sampleSmall width fun _ => trivial)) h

theorem readUIntFull_spells {width v : Nat} (h : readUIntFull width s = .ok v t) :
    ∃ bs, bs.length = width ∧ Spells 0 bs s t := by
  obtain ⟨_, _, hw, -⟩ := bind_ok.1 h
  obtain ⟨h1, h8⟩ := checkWidth_ok hw
  rw [readUIntFull_eq width h1 h8] at h
  exact integer_spells (fun _ => .draws (.decideRaw width fun _ => trivial)) h

theorem readUIntKnown_spells {width v : Nat} {known : List Nat}
    (h : readUIntKnown width known s = .ok v t) : ∃ bs, bs.length = width ∧ Spells 1 bs s t := by
  obtain ⟨_, _, hw, -⟩ := bind_ok.1 h
  obtain ⟨h1, h8⟩ := checkWidth_ok hw
  rw [readUIntKnown_eq width known h1 h8] at h
  exact integer_spells (fun r => .chooseKnown known r (.sampleSmall width fun _ => trivial)) h

theorem readBytes_spells (h : readBytes n s = .ok bs t) : Spells 0 bs s t := by
  rw [readBytes_eq] at h
  obtain ⟨_, hspells⟩ := Field.read_spells (fun _ _ _ => Field.string_state)
    (fun _ => .draws (.drawSymbols .plain n fun _ => trivial)) h
  exact hspells

theorem readString_spells (h : readString n s = .ok bs t) : Spells 0 bs s t := by
  rw [readString_eq] at h
  obtain ⟨_, hspells⟩ := Field.read_spells (fun _ _ _ => Field.string_state)
    (fun _ => .draws (.drawText .plain n fun _ => trivial)) h
  exact hspells

theorem known_length {known : List Bytes} (h : readBytesKnown n known s = .ok bs t) :
    ∀ v ∈ known, v.length = n := by
  cases hf : known.find? (·.length != n) with
  | none => simpa using hf
  | some bad =>
    rw [readBytesKnown, hf] at h
    obtain ⟨_, _, h, -⟩ := bind_ok.1 h
    exact absurd h (violation_not_ok _ _ _ _)

/-- What is chosen out of the stream or out of the file has the length asked for. -/
theorem chosen_length {known : List Bytes} {r : Option Bytes} (hk : ∀ v ∈ known, v.length = n)
    (hr : ∀ v, r = some v → v.length = n)
    (h : chooseKnown r known (drawSymbols .plain n) s = .ok bs t) : bs.length = n := by
  have hne : known ≠ [] := by
    rintro rfl
    rw [chooseKnown_empty] at h
    exact violation_not_ok _ _ _ _ h
  have hcodec := chooseKnown_codec (K := K) (T := False) known _ _ _ hne (drawBytes_codec n)
    fun hf => hf.elim
  cases r with
  | none =>
    obtain ⟨hfits, -⟩ := hcodec.drawn s bs t h
    exact hfits.elim (hk bs) And.right
  | some v =>
    have hfits : v ∈ known ∨ s.evil.allowed = true ∧ v.length = n :=
      (chooseKnown_admits h).imp_right fun he => ⟨he, hr v rfl⟩
    obtain ⟨rfl, -⟩ := hcodec.forced s v bs t hfits h
    exact hr bs rfl

theorem readBytesKnown_spells {known : List Bytes} (h : readBytesKnown n known s = .ok bs t) :
    bs.length = n ∧ Spells 1 bs s t := by
  have hk := known_length h
  rw [readBytesKnown_eq n known hk] at h
  constructor
  · rw [string_read] at h
    obtain ⟨r, s1, h1, h⟩ := bind_ok.1 ((bind_run rfl).symm.trans h)
    obtain ⟨w, s2, h2, h⟩ := bind_ok.1 h
    obtain ⟨_, _, -, h⟩ := bind_ok.1 h
    cases h
    exact chosen_length hk (fun v hv => (found_stands (hv ▸ h1)).1) h2
  · obtain ⟨_, hspells⟩ := Field.read_spells (fun _ _ _ => Field.string_state)
      (fun r => .chooseKnown known r (.drawSymbols .plain n fun _ => trivial)) h
    exact hspells

theorem foundCString_state {most : Nat} {r : Option Bytes} (h : foundCString most s = .ok r t) :
    t = s := by
  rw [foundCString] at h
  dsimp only at h
  split at h
  · cases h
    rfl
  · split at h
    · split at h
      · exact absurd h (violation_not_ok _ _ _ _)
      · cases h
        rfl
    · exact absurd h (violation_not_ok _ _ _ _)

theorem readCString_spells {most : Nat} (h : readCString most s = .ok bs t) :
    Spells 0 (bs ++ [0]) s t := by
  rw [readCString_eq] at h
  have hdraw : ∀ r, Draws (K := K) True (drawTerminated most r) := fun _ =>
    (Draws.sampleSmall _ fun _ => trivial).bind fun _ => .drawText _ _ fun _ => trivial
  obtain ⟨_, hspells⟩ := Field.read_spells (fun _ _ _ => foundCString_state)
    (fun r => .draws (hdraw r)) h
  exact hspells

theorem reserve_spells {width : Nat} {field : Reserved} (h : reserve width s = .ok field t) :
    field.position = s.image.cursor ∧ field.width = width ∧
      ∃ bs, bs.length = width ∧ Spells 0 bs s t := by
  obtain ⟨_, s1, hwidth, h⟩ := bind_ok.1 h
  obtain ⟨position, s2, htell, h⟩ := bind_ok.1 h
  obtain ⟨there, s3, hfound, h⟩ := bind_ok.1 h
  rw [get_bind] at h
  obtain ⟨_, s4, hemit, h⟩ := bind_ok.1 h
  cases h
  cases htell
  obtain rfl := checkWidth_state hwidth
  obtain rfl := found_state hfound
  refine ⟨rfl, rfl, _, ?_, .emits (emit_emits hemit)⟩
  cases there with
  | none => exact List.length_replicate
  | some bs => exact (found_stands hfound).1

/-- A move stays within the file, or fills the gap from the end of the file on. -/
theorem seek_cases {p : Nat} {a : Unit} (h : seek p s = .ok a t) :
    (p ≤ s.image.size ∧ t = s.movedTo p) ∨
      (s.image.size < p ∧ ∃ u, fillGap (p - s.image.size) (s.movedTo s.image.size) = .ok () u ∧
        t = u.movedTo p) := by
  rw [seek, get_bind] at h
  by_cases hl : s.image.limit < p
  · rw [if_pos hl] at h
    cases hm : s.mode with
    | parse =>
      simp only [hm] at h
      obtain ⟨_, _, h, -⟩ := bind_ok.1 h
      exact absurd h (violation_not_ok _ _ _ _)
    | generate =>
      simp only [hm] at h
      obtain ⟨_, _, h, -⟩ := bind_ok.1 h
      exact absurd h (throw_not_ok _ _ _ _)
  · rw [if_neg hl] at h
    by_cases hp : s.image.size < p
    · rw [if_pos hp] at h
      obtain ⟨_, s1, hmove, hrest⟩ := bind_ok.1 h
      obtain ⟨_, s2, hfill, hend⟩ := bind_ok.1 hrest
      cases hmove
      cases hend
      exact Or.inr ⟨hp, s2, hfill, rfl⟩
    · rw [if_neg hp] at h
      cases h
      exact Or.inl ⟨Nat.le_of_not_lt hp, rfl⟩

/-- A patch goes to its field, emits the value and comes back. -/
theorem patch_steps {field : Reserved} {v : Nat} {a : Unit} (h : patch field v s = .ok a t) :
    ∃ bs there u, bs.length = field.width ∧ seek field.position s = .ok () there ∧
      Emits bs there u ∧ seek s.image.cursor u = .ok () t := by
  rw [patch, get_bind] at h
  split at h
  · obtain ⟨_, _, h, -⟩ := bind_ok.1 h
    exact absurd h (violation_not_ok _ _ _ _)
  · obtain ⟨back, s1, htell, hrest⟩ := bind_ok.1 h
    obtain ⟨_, s2, hthere, hrest'⟩ := bind_ok.1 hrest
    obtain ⟨_, s3, hemit, hback⟩ := bind_ok.1 hrest'
    cases htell
    rw [emitInteger, get_bind] at hemit
    exact ⟨_, s2, s3, Endian.length_encode _ _ _, hthere, emit_emits hemit, hback⟩

end Walker

end DecisionWalk
