import DecisionWalk.Proofs.MachineDraws
import DecisionWalk.Proofs.Spelling

/-!
# Fields on a machine

What a request of a grammar does on a machine is what the walker does, as long as
the stream, the file and the field are not too large and the cursor stands where
the file may reach to.
-/

set_option autoImplicit false

namespace DecisionWalk

open Walker

variable {K α : Type} {s t : State K}

structure Placed (s : State K) : Prop extends Steady s where
  cursor : s.image.cursor < allocationBound
  limit : s.image.limit < smallValues

theorem Placed.drawn {x : Walker K α} {a : α} (hs : Placed s) (hx : Draws True x)
    (h : x s = .ok a t) : Placed t ∧ t.image = s.image ∧ t.endian = s.endian := by
  obtain ⟨e, hafter⟩ := hx.after s
  obtain rfl := (after_ok h).symm.trans hafter
  exact ⟨⟨hx.steady hs.toSteady h, hs.cursor, hs.limit⟩, rfl, rfl⟩

theorem Placed.sum_lt {n : Nat} (hs : Placed s) (hn : n < smallValues) :
    s.image.cursor + n < wordValues := by
  have hcursor := hs.cursor
  simp only [allocationBound, smallValues, wordValues] at *
  omega

theorem Passes.limit (h : Passes s t) : t.image.limit = s.image.limit := by
  induction h with
  | trans h1 h2 ih1 ih2 => exact ih2.trans ih1
  | looks offset h ih => exact ih
  | returns offset h ih => exact ih
  | _ => rfl

theorem Passes.steady (h : Passes s t) (hs : Steady s) : Steady t := by
  have honward := h.onward
  refine ⟨honward.within hs.within, ?_⟩
  rw [honward.streamCapacity]
  exact hs.capacity

theorem Orderly.ok {x : Walker K α} {a : α} (hx : Orderly x) (h : x s = .ok a t) : Passes s t := by
  have hend := hx s
  rw [h] at hend
  exact hend

def Tracker.Exits (t : Tracker K) : Prop := ∀ slot, t.lastExit = some slot → slot < t.chunks.size

theorem Tracker.Exits.touch {t : Tracker K} (h : t.Exits) (span : Span) : (t.touch span).Exits := by
  rw [Tracker.touch]
  split
  · exact h
  · cases hs : t.stack with
    | nil => exact h
    | cons top rest => exact h

theorem Tracker.Exits.lookahead (t : Tracker K) (decisions : Span) :
    (t.lookahead decisions).Exits := by
  intro slot h
  rw [lookahead_lastExit] at h
  cases h

theorem Passes.exits (h : Passes s t) (hs : s.tracker.Exits) : t.tracker.Exits := by
  induction h with
  | trans h1 h2 ih1 ih2 => exact ih2 (ih1 hs)
  | writes s bs hm h => exact hs.touch _
  | marks s bs hm h => exact hs.touch _
  | tosses s e h => exact .lookahead _ _
  | looks offset h ih => exact .lookahead _ _
  | returns offset h ih => exact ih hs
  | _ => exact hs

namespace Matches

open Machine

variable {x : Machine K α} {y : Walker K α}

/-- The walker looks at the state and leaves it alone. -/
theorem looks (h : (∃ a, y s = .ok a s) ∨ ∃ v, y s = Walker.violation v s) :
    Matches (Machine.plain y) y s := by
  refine .plain ?_
  intro d t hd
  rcases h with ⟨a, ha⟩ | ⟨v, hv⟩
  · rw [ha] at hd
    cases hd
  · rw [hv] at hd
    cases hd

theorem inspect {position length : Nat} {f : Unit → Machine K α}
    (hsum : position + length < wordValues) (h : Matches (f ()) y s) :
    Matches (inspect position length >>= f) y s := by
  have hrun : Machine.inspect position length s = .ok () s := by
    have haddable : (Machine.addable position length : Machine K Unit) = Pure.pure () := if_pos hsum
    rw [Machine.inspect, Machine.sum, haddable]
    show (if position < min (position + length) s.image.fixed.size then
      Machine.range position (min (position + length) s.image.fixed.size) s.image.fixed.size
      else Pure.pure ()) s = _
    split
    case isTrue hlt =>
      rw [Machine.range, Machine.demand, if_pos ⟨Nat.le_of_lt hlt, Nat.min_le_right _ _⟩]
      rfl
    case isFalse => rfl
  have hbind : (Machine.inspect position length >>= f) s = f () s := by
    show EStateM.bind _ f s = _
    rw [EStateM.bind, hrun]
  exact ⟨hbind.trans h.runs, h.sane⟩

end Matches

namespace Machine

theorem found_matches {position length : Nat} (hsum : position + length < wordValues) :
    Matches (found position length) (Walker.found position length) s :=
  .inspect hsum (.looks (found_looks position length s))

theorem emit_sane (bs : Bytes) (d : Defect) : Walker.emit bs s ≠ .error (.defect d) t := by
  intro h
  rw [Walker.emit] at h
  split at h
  · split at h <;> cases h
  · split at h
    · cases h
    · split at h <;> cases h

theorem emit_matches {bs : Bytes} (hsum : s.image.cursor + bs.length < wordValues) :
    Matches (emit bs) (Walker.emit bs) s := by
  have hle : s.image.cursor ≤ s.image.cursor + bs.length := Nat.le_add_right _ _
  exact .get (.sum hsum (.range ⟨hle, Nat.le_max_right _ _⟩
    (.range ⟨hle, Nat.le_max_right _ _⟩ (.plain fun d t => emit_sane bs d))))

theorem checkWidth_matches (width : Nat) :
    Matches (checkWidth width) (Walker.checkWidth width) s := by
  refine .looks ?_
  rw [Walker.checkWidth]
  split
  · exact Or.inl ⟨_, rfl⟩
  · exact Or.inr ⟨_, rfl⟩

theorem tell_matches : Matches tell Walker.tell s := .looks (Or.inl ⟨_, rfl⟩)

theorem remaining_matches : Matches remaining Walker.remaining s := .looks (Or.inl ⟨_, rfl⟩)

theorem foundInteger_matches {width : Nat} (hs : Placed s) (hw : width ≤ wordBytes) :
    Matches (foundInteger width) (Walker.foundInteger width) s := by
  have hsmall : width < smallValues := Nat.lt_of_le_of_lt hw (by decide)
  exact .gets ((found_matches (hs.sum_lt hsmall)).bind fun _ _ _ => .pure _ _)

theorem emitInteger_matches {width : Nat} (value : Nat) (hs : Placed s) (hw : width ≤ wordBytes) :
    Matches (emitInteger width value) (Walker.emitInteger width value) s := by
  have hsmall : width < smallValues := Nat.lt_of_le_of_lt hw (by decide)
  refine .gets (.range ⟨Nat.zero_le _, hw⟩ (emit_matches ?_))
  rw [Endian.length_encode]
  exact hs.sum_lt hsmall

/-- The reads of integers differ in their draw only. -/
theorem readInteger_matches {width : Nat} {draw' : Option Nat → Machine K Nat}
    {draw : Option Nat → Walker K Nat} (hs : Placed s)
    (hdraw : ∀ r, width ≤ wordBytes → Matches (draw' r) (draw r) s)
    (hd : ∀ r, Draws True (draw r)) :
    Matches (do
        checkWidth width
        let there ← foundInteger width
        let value ← draw' there
        emitInteger width value
        pure value)
      (do
        Walker.checkWidth width
        let there ← Walker.foundInteger width
        let value ← draw there
        Walker.emitInteger width value
        pure value) s := by
  refine (checkWidth_matches width).bind fun _ u hu => ?_
  obtain ⟨-, hw⟩ := checkWidth_ok hu
  obtain rfl := checkWidth_state hu
  refine (foundInteger_matches hs hw).bind fun there v hv => ?_
  obtain rfl := foundInteger_state hv
  refine (hdraw there hw).bind fun value w hvalue => ?_
  obtain ⟨hready, -⟩ := hs.drawn (hd there) hvalue
  exact (emitInteger_matches value hready hw).bind fun _ _ _ => .pure _ _

theorem readUInt_matches (width : Nat) (hs : Placed s) :
    Matches (readUInt width) (Walker.readUInt width) s :=
  readInteger_matches hs (fun r hw => sampleSmall_matches r hw hs.toSteady)
    fun _ => .sampleSmall width fun _ => trivial

theorem readUIntFull_matches (width : Nat) (hs : Placed s) :
    Matches (readUIntFull width) (Walker.readUIntFull width) s :=
  readInteger_matches hs (fun r hw => decideRaw_matches r hw hs.toSteady)
    fun _ => .decideRaw width fun _ => trivial

theorem readUIntKnown_matches (width : Nat) {known : List Nat} (hk : known.length ≤ wordValues)
    (hs : Placed s) : Matches (readUIntKnown width known) (Walker.readUIntKnown width known) s :=
  readInteger_matches hs
    (fun r hw => chooseKnown_matches hk (fun _ ht => sampleSmall_matches r hw ht) hs.toSteady)
    fun _ => .chooseKnown known (fun _ => trivial) (.sampleSmall width fun _ => trivial)

/-- The reads of bytes differ in their draw only, which gives as many as were asked for. -/
theorem readPlain_matches {length : Nat} {draw' : Option Bytes → Machine K Bytes}
    {draw : Option Bytes → Walker K Bytes} (hs : Placed s) (hlength : length < smallValues)
    (hdraw : ∀ r, (∀ bs, r = some bs → bs.length = length) → Matches (draw' r) (draw r) s)
    (hd : ∀ r, Draws True (draw r))
    (hlen : ∀ r bs t, (∀ v, r = some v → v.length = length) → draw r s = .ok bs t →
      bs.length = length) :
    Matches (do
        let there ← found (← tell) length
        let bytes ← draw' there
        emit bytes
        pure bytes)
      (do
        let there ← Walker.found (← Walker.tell) length
        let bytes ← draw there
        Walker.emit bytes
        pure bytes) s := by
  have hsum := hs.sum_lt hlength
  refine tell_matches.bind fun position u hu => ?_
  cases hu
  refine (found_matches hsum).bind fun there v hv => ?_
  obtain rfl := found_state hv
  have hthere : ∀ bs, there = some bs → bs.length = length :=
    fun bs h => (found_stands (h ▸ hv)).1
  refine (hdraw there hthere).bind fun bytes w hw => ?_
  obtain ⟨-, himage, -⟩ := hs.drawn (hd there) hw
  refine (emit_matches ?_).bind fun _ _ _ => .pure _ _
  rw [himage, hlen there bytes w hthere hw]
  exact hsum

theorem plain_length {length : Nat} {r : Option Bytes} {bs : Bytes}
    (hr : ∀ v, r = some v → v.length = length)
    (h : Walker.drawSymbols .plain length r s = .ok bs t) : bs.length = length := by
  have hcodec := drawBytes_codec (K := K) (T := True) length
  cases r with
  | none => exact (hcodec.drawn s bs t h).1
  | some v =>
    obtain ⟨rfl, -⟩ := hcodec.forced s v bs t (hr v rfl) h
    exact hr bs rfl

theorem lt_allocationBound {n : Nat} (h : n < smallValues) : n < allocationBound :=
  Nat.lt_trans h (by decide)

theorem drawPlain_matches {length : Nat} {r : Option Bytes} (hlength : length < smallValues)
    (hr : ∀ v, r = some v → v.length = length) (hs : Steady s) :
    Matches (drawSymbols .plain length r) (Walker.drawSymbols .plain length r) s :=
  drawSymbols_matches (by decide) (by decide) (lt_allocationBound hlength)
    (fun bs h => ⟨hr bs h, fun b _ => Alphabet.plain_contains b⟩) hs

theorem readBytes_matches {length : Nat} (hs : Placed s) (hlength : length < smallValues) :
    Matches (readBytes length) (Walker.readBytes length) s :=
  readPlain_matches hs hlength (fun _ hr => drawPlain_matches hlength hr hs.toSteady)
    (fun _ => .drawSymbols .plain length fun _ => trivial) fun _ _ _ hr h => plain_length hr h

theorem readBytesKnown_matches {length : Nat} {known : List Bytes} (hs : Placed s)
    (hlength : length < smallValues) (hk : known.length ≤ wordValues)
    (hknown : ∀ bs ∈ known, bs.length = length) :
    Matches (readBytesKnown length known) (Walker.readBytesKnown length known) s := by
  have hfind : known.find? (·.length != length) = none := by
    rw [List.find?_eq_none]
    intro bs hbs
    simp [hknown bs hbs]
  unfold readBytesKnown Walker.readBytesKnown
  rw [hfind]
  exact readPlain_matches hs hlength
    (fun _ hr => chooseKnown_matches hk (fun _ ht => drawPlain_matches hlength hr ht) hs.toSteady)
    (fun _ => .chooseKnown known (fun _ => trivial) (.drawSymbols .plain length fun _ => trivial))
    fun _ _ _ hr h => chosen_length hknown hr h

theorem text_length {length : Nat} {r : Option Bytes} {bs : Bytes}
    (hr : ∀ v, r = some v → v.length = length)
    (h : Walker.drawText .plain length r s = .ok bs t) : bs.length = length := by
  have hcodec := drawString_codec (K := K) (T := True) length
  cases r with
  | none => exact (hcodec.drawn s bs t h).1
  | some v =>
    obtain ⟨rfl, -⟩ := hcodec.forced s v bs t (hr v rfl) h
    exact hr bs rfl

theorem readString_matches {length : Nat} (hs : Placed s) (hlength : length < smallValues) :
    Matches (readString length) (Walker.readString length) s := by
  have hread : Matches _ _ s := readPlain_matches hs hlength
    (fun _ hr => drawText_matches .plain (by decide) (by decide)
      (lt_allocationBound hlength) (fun bs h => ⟨hr bs h, fun b _ => Alphabet.plain_contains b⟩)
      hs.toSteady)
    (fun _ => .drawText .plain length fun _ => trivial) fun _ _ _ hr h => text_length hr h
  simp only [drawText, Walker.drawText, bind_assoc] at hread
  exact hread

/-- Where a string and its terminator are looked for. -/
theorem window_length_le (im : Image) (most stop : Nat) :
    ((im.slice? im.cursor (min (im.cursor + most + 1) stop)).getD []).length ≤ most + 1 := by
  rw [Image.slice?]
  split
  · rw [Option.getD_some, Array.length_toList, Array.size_extract]
    omega
  · exact Nat.zero_le _

/-- The string that is there fits in what was asked for, and its terminator was its first zero. -/
theorem foundCString_there {most : Nat} {bs : Bytes}
    (h : Walker.foundCString most s = .ok (some bs) t) :
    bs.length ≤ most ∧ ∀ b ∈ bs, Alphabet.nonNul.contains b = true := by
  rw [Walker.foundCString] at h
  dsimp only at h
  split at h
  · cases h
  · generalize hw : (s.image.slice? s.image.cursor
      (min (s.image.cursor + most + 1) s.image.limit)).getD [] = window at h
    have hlen : window.length ≤ most + 1 := hw ▸ window_length_le _ _ _
    cases hi : window.findIdx? (· == 0) with
    | none =>
      rw [hi] at h
      exact absurd h (violation_not_ok _ _ _ _)
    | some n =>
      rw [hi] at h
      obtain ⟨hn, -, hne⟩ := List.findIdx?_eq_some_iff_getElem.1 hi
      dsimp only at h
      split at h
      · exact absurd h (violation_not_ok _ _ _ _)
      · cases h
        refine ⟨by rw [List.length_take]; omega, ?_⟩
        intro b hb
        obtain ⟨k, hk, rfl⟩ := List.mem_iff_getElem.1 hb
        rw [List.length_take] at hk
        rw [Alphabet.nonNul_contains, List.getElem_take]
        simpa using hne k (by omega)

theorem foundCString_looks (most : Nat) (s : State K) :
    (∃ r, Walker.foundCString most s = .ok r s) ∨
      ∃ v, Walker.foundCString most s = Walker.violation v s := by
  rw [Walker.foundCString]
  dsimp only
  split
  · exact Or.inl ⟨_, rfl⟩
  · split
    · split
      · exact Or.inr ⟨_, rfl⟩
      · exact Or.inl ⟨_, rfl⟩
    · exact Or.inr ⟨_, rfl⟩

theorem foundCString_matches {most : Nat} (hs : Placed s) (hmost : most < smallValues) :
    Matches (foundCString most) (Walker.foundCString most) s := by
  have hcursor := hs.cursor
  have hplain : Matches (plain (Walker.foundCString most)) (Walker.foundCString most) s :=
    .looks (foundCString_looks most s)
  simp only [allocationBound, smallValues] at hcursor hmost
  refine .get (.inspect (hs.sum_lt (by decide)) (.sum ?_ (.sum ?_ ?_)))
  · simp only [wordValues]
    omega
  · simp only [wordValues]
    omega
  · have hlen := window_length_le s.image most s.image.limit
    dsimp only
    generalize (s.image.slice? s.image.cursor
      (min (s.image.cursor + most + 1) s.image.limit)).getD [] = window at hlen ⊢
    cases hi : window.findIdx? (· == 0) with
    | none =>
      refine .addable ?_ hplain
      simp only [wordValues]
      omega
    | some n =>
      obtain ⟨hn, -⟩ := List.findIdx?_eq_some_iff_getElem.1 hi
      refine .sum ?_ (.inspect ?_ (.range ⟨Nat.zero_le _, Nat.le_of_lt hn⟩ hplain))
      · simp only [wordValues]
        omega
      · simp only [wordValues]
        omega

/-- The length that is drawn for a string that is there is its own. -/
theorem drawnLength {most drawn : Nat} {bs : Bytes} (hw : lengthWidth most ≤ wordBytes)
    (hbs : bs.length ≤ most)
    (h : Walker.sampleSmall (lengthWidth most) (some bs.length) s = .ok drawn t) :
    drawn % (most + 1) = bs.length := by
  have hcodec := sampleSmall_codec (K := K) (T := True) (lengthWidth most)
    (Nat.le_max_right _ _) hw
  obtain ⟨rfl, -⟩ := hcodec.forced s bs.length drawn t (lt_pow_lengthWidth most _ hbs) h
  exact Nat.mod_eq_of_lt (by omega)

theorem terminated_length {length : Nat} {r : Option Bytes} {bs : Bytes}
    (hr : ∀ v, r = some v → v.length = length ∧ ∀ b ∈ v, Alphabet.nonNul.contains b = true)
    (h : Walker.drawText .nonNul length r s = .ok bs t) : bs.length = length := by
  have hcodec := drawText_codec (K := K) (T := True) .nonNul (by decide) (by decide) length
    fun b hb => (Alphabet.nonNul_contains b).2 (Alphabet.printable_ne_zero b hb)
  cases r with
  | none => exact (hcodec.drawn s bs t h).1.1
  | some v =>
    obtain ⟨rfl, -⟩ := hcodec.forced s v bs t (hr v rfl) h
    exact (hr bs rfl).1

theorem readCString_matches {most : Nat} (hs : Placed s) (hmost : most < smallValues) :
    Matches (readCString most) (Walker.readCString most) s := by
  have hsum : most + 1 < wordValues := by
    simp only [smallValues, wordValues] at *
    omega
  have hw : lengthWidth most ≤ wordBytes :=
    Nat.max_le.2 ⟨decisionWidth_le (Nat.le_of_lt hsum), by decide⟩
  refine (foundCString_matches hs hmost).bind fun there u hu => ?_
  obtain rfl := foundCString_state hu
  refine .sum hsum ((sampleSmall_matches _ hw hs.toSteady).bind fun drawn v hv => ?_)
  obtain ⟨hplaced, himage, -⟩ := hs.drawn (.sampleSmall _ fun _ => trivial) hv
  have hlength : drawn % (most + 1) < smallValues :=
    Nat.lt_of_le_of_lt (Nat.le_of_lt_succ (Nat.mod_lt _ (Nat.succ_pos _))) hmost
  have hthere : ∀ bs, there = some bs → bs.length = drawn % (most + 1) ∧
      ∀ b ∈ bs, Alphabet.nonNul.contains b = true := by
    rintro bs rfl
    obtain ⟨hbs, hnonNul⟩ := foundCString_there hu
    exact ⟨(drawnLength hw hbs hv).symm, hnonNul⟩
  have hrest : Matches _ _ v := (drawText_matches .nonNul (by decide) (by decide)
    (lt_allocationBound hlength) hthere hplaced.toSteady).bind
      (f := fun bytes => do
        addable (drawn % (most + 1)) 1
        emit (bytes ++ [0])
        pure bytes)
      (g := fun bytes => do
        Walker.emit (bytes ++ [0])
        pure bytes) fun bytes w hbytes => ?_
  · simp only [drawText, Walker.drawText, bind_assoc] at hrest
    exact hrest
  · obtain ⟨hend, himage', -⟩ := hplaced.drawn (.drawText _ _ fun _ => trivial) hbytes
    have hlen := terminated_length hthere hbytes
    have hsmall : drawn % (most + 1) + 1 < wordValues := by
      simp only [smallValues, wordValues] at *
      omega
    refine .addable hsmall ((emit_matches ?_).bind fun _ _ _ => .pure _ _)
    have hcursor := hend.cursor
    rw [List.length_append, List.length_singleton, hlen]
    simp only [smallValues, wordValues, allocationBound] at *
    omega

theorem decideCount_matches (most : Nat) (derived : Option Nat) (hs : Steady s) :
    Matches (decideCount most derived) (Walker.decideCount most derived) s := by
  have hsample : Matches (sampleSmall 8 derived >>= fun value => pure (value % (most + 1)))
      (Walker.sampleSmall 8 derived >>= fun value => Pure.pure (value % (most + 1))) s :=
    (sampleSmall_matches derived (by decide) hs).bind fun _ _ _ => .pure _ _
  cases derived with
  | none =>
    refine .gets (.guarded _ fun _ => ?_)
    exact hsample
  | some value =>
    unfold decideCount Walker.decideCount
    refine .guarded _ fun _ => ?_
    exact hsample

/-- The gap is filled in as many rounds as there are bytes in it. -/
theorem fillUpTo_matches (position rounds : Nat) (hs : Placed s)
    (hposition : s.image.cursor + rounds = position) (hbound : position < allocationBound) :
    Matches (fillUpTo position rounds) (Walker.fillGap rounds) s := by
  induction rounds generalizing s with
  | zero =>
    refine .get ?_
    have hdemand : (demand (position ≤ s.image.cursor) .endless : Machine K Unit) =
        Pure.pure () := if_pos (by omega)
    rw [hdemand]
    exact .pure _ _
  | succ rounds ih =>
    refine .get ?_
    rw [if_pos (by omega)]
    refine (readUIntFull_matches 1 hs).bind fun _ t ht => ?_
    have hpass : Passes s t := (Orderly.readUIntFull 1).ok ht
    have hcursor := readUIntFull_cursor ht
    have hplaced : Placed t :=
      ⟨hpass.steady hs.toSteady, by omega, hpass.limit ▸ hs.limit⟩
    exact ih hplaced (by omega)

theorem moveTo_matches (position : Nat) :
    Matches (plain (Walker.moveTo position)) (Walker.moveTo position) s :=
  .plain fun _ _ h => (nomatch h)

theorem seek_matches (position : Nat) (hs : Steady s) (hlimit : s.image.limit < smallValues) :
    Matches (seek position) (Walker.seek position) s := by
  refine .gets ?_
  by_cases hl : s.image.limit < position
  · rw [if_pos hl, if_pos hl]
    cases s.mode with
    | parse =>
      exact (Matches.violation _ _).bind fun _ _ h => absurd h (violation_not_ok _ _ _ _)
    | generate =>
      have hthrow : Matches (throw (.failed (.capacityExceeded .file s.image.capacity)))
          (throw (.capacityExceeded .file s.image.capacity) : Walker K Unit) s :=
        ⟨rfl, fun _ _ h => (nomatch h)⟩
      exact hthrow.bind fun _ _ h => absurd h (throw_not_ok _ _ _ _)
  · rw [if_neg hl, if_neg hl]
    have hsmall : position < allocationBound := lt_allocationBound (by omega)
    by_cases hp : s.image.size < position
    · rw [if_pos hp, if_pos hp]
      refine (moveTo_matches _).bind fun _ t ht => ?_
      cases ht
      have hplaced : Placed (s.movedTo s.image.size) :=
        ⟨⟨hs.within, hs.capacity⟩, Nat.lt_trans hp hsmall, hlimit⟩
      have hposition : (s.movedTo s.image.size).image.cursor + (position - s.image.size) =
          position := Nat.add_sub_cancel' (Nat.le_of_lt hp)
      exact (fillUpTo_matches position _ hplaced hposition hsmall).bind
        fun _ _ _ => moveTo_matches _
    · rw [if_neg hp, if_neg hp]
      exact moveTo_matches _

theorem seek_le {position : Nat} {a : Unit} (h : Walker.seek position s = .ok a t) :
    position ≤ s.image.limit := by
  by_cases hl : s.image.limit < position
  · rw [Walker.seek, get_bind, if_pos hl] at h
    cases hm : s.mode with
    | parse =>
      rw [hm] at h
      obtain ⟨_, _, h, -⟩ := bind_ok.1 h
      exact absurd h (violation_not_ok _ _ _ _)
    | generate =>
      rw [hm] at h
      obtain ⟨_, _, h, -⟩ := bind_ok.1 h
      exact absurd h (throw_not_ok _ _ _ _)
  · exact Nat.le_of_not_lt hl

theorem seek_cursor {position : Nat} {a : Unit} (h : Walker.seek position s = .ok a t) :
    t.image.cursor = position := by
  rcases seek_cases h with ⟨-, rfl⟩ | ⟨-, u, -, rfl⟩ <;> rfl

/-- A cursor that was moved stands within what the file may reach to. -/
theorem seek_placed {position : Nat} {a : Unit} (hs : Steady s)
    (hlimit : s.image.limit < smallValues) (h : Walker.seek position s = .ok a t) : Placed t := by
  have hpass : Passes s t := (Orderly.seek position).ok h
  have hle := seek_le h
  refine ⟨hpass.steady hs, ?_, hpass.limit ▸ hlimit⟩
  rw [seek_cursor h]
  exact lt_allocationBound (Nat.lt_of_le_of_lt hle hlimit)

theorem skip_matches {n : Nat} (hs : Placed s) (hn : n < smallValues) :
    Matches (skip n) (Walker.skip n) s := by
  refine tell_matches.bind fun position t ht => ?_
  cases ht
  exact .sum (hs.sum_lt hn) (seek_matches _ hs.toSteady hs.limit)

theorem reserve_matches (width : Nat) (hs : Placed s) :
    Matches (reserve width) (Walker.reserve width) s := by
  refine (checkWidth_matches width).bind fun _ u hu => ?_
  obtain ⟨-, hw⟩ := checkWidth_ok hu
  obtain rfl := checkWidth_state hu
  have hsum := hs.sum_lt (Nat.lt_of_le_of_lt hw (by decide) : width < smallValues)
  refine tell_matches.bind fun position v hv => ?_
  cases hv
  refine (found_matches hsum).bind fun there w hfound => .gets ?_
  obtain rfl := found_state hfound
  refine (emit_matches ?_).bind fun _ _ _ => .pure _ _
  cases there with
  | none => rwa [Option.getD_none, List.length_replicate]
  | some bs => rwa [Option.getD_some, (found_stands hfound).1]

theorem patch_matches {field : Reserved} (value : Nat) (hs : Placed s)
    (hw : field.width ≤ wordBytes) : Matches (patch field value) (Walker.patch field value) s := by
  refine .gets (.guarded _ fun _ => ?_)
  refine tell_matches.bind fun back t ht => ?_
  cases ht
  refine (seek_matches _ hs.toSteady hs.limit).bind fun _ u hu => ?_
  have hplaced := seek_placed hs.toSteady hs.limit hu
  refine (emitInteger_matches value hplaced hw).bind fun _ v hv => ?_
  have hpass : Passes u v := (Orderly.emitInteger _ _).ok hv
  exact seek_matches _ (hpass.steady hplaced.toSteady) (hpass.limit ▸ hplaced.limit)

theorem markLookahead_matches (start : Nat) (hs : s.tracker.Exits) :
    Matches (markLookahead start) (Walker.markLookahead start) s := by
  refine .get (.demand ?_ (.plain fun _ _ h => (nomatch h)))
  cases hexit : s.tracker.lastExit with
  | none => rfl
  | some slot => exact decide_eq_true (hs slot hexit)

theorem endOfFile_matches (threshold : Nat) (hs : Steady s) (hexit : s.tracker.Exits) :
    Matches (endOfFile threshold) (Walker.endOfFile threshold) s := by
  have hposition : Matches (plain Walker.position) Walker.position s := .looks (Or.inl ⟨_, rfl⟩)
  have hknown : ∃ forced, Walker.knownEnd s = .ok forced s := by
    rw [Walker.knownEnd]
    split
    · exact ⟨_, rfl⟩
    · exact ⟨_, rfl⟩
  refine hposition.bind fun start t ht => ?_
  cases ht
  refine (Matches.looks (Or.inl hknown)).bind fun forced u hu => ?_
  obtain ⟨_, hknown⟩ := hknown
  obtain rfl : s = u := by
    rw [hknown] at hu
    cases hu
    rfl
  refine (decideBelow_matches (by decide) ?_ hs).bind fun coin v hv => ?_
  · intro coin hcoin
    obtain ⟨ends, -, rfl⟩ := Option.map_eq_some_iff.1 hcoin
    split <;> decide
  obtain ⟨e, hafter⟩ := (Draws.decideBelow (K := K) 256 fun _ => trivial).after s
  obtain rfl := (after_ok hv).symm.trans hafter
  have hmark := markLookahead_matches (s := s.recorded e) s.stream.position hexit
  exact hmark.bind fun _ _ _ => .pure _ _

def returned (back : Nat) (y : Walker K α) : Walker K α := fun s =>
  match y s with
  | .ok a t => .ok a { t with image := t.image.moveTo back }
  | .error e t => .error e { t with image := t.image.moveTo back }

theorem returned_ok {back : Nat} {y : Walker K α} {a : α} (h : returned back y s = .ok a t) :
    ∃ u, y s = .ok a u ∧ t = u.movedTo back := by
  rw [returned] at h
  cases hy : y s with
  | ok b u =>
    rw [hy] at h
    cases h
    exact ⟨u, rfl, rfl⟩
  | error e u =>
    rw [hy] at h
    cases h

theorem returning_matches {x : Machine K α} {y : Walker K α} (back : Nat) (h : Matches x y s) :
    Matches (returning back x) (returned back y) s := by
  constructor
  · rw [returning, returned, h.runs]
    cases y s <;> rfl
  · intro d t hd
    rw [returned] at hd
    cases hy : y s with
    | ok a u =>
      rw [hy] at hd
      cases hd
    | error e u =>
      rw [hy] at hd
      cases hd
      exact h.sane d u hy

theorem ahead_eq (offset : Nat) (y : Walker K α) (s : State K) :
    Walker.ahead offset y s = (do
      let a ← returned s.image.cursor do
        Walker.moveTo (s.image.cursor + offset)
        y
      Walker.markLookahead s.stream.position
      pure a : Walker K α) s := by
  have hmoved : (Walker.moveTo (s.image.cursor + offset) >>= fun _ => y : Walker K α) s =
      y (s.movedTo (s.image.cursor + offset)) := rfl
  rw [Walker.ahead]
  show (match y (s.movedTo (s.image.cursor + offset)) with
    | .ok a t => _
    | .error e t => _) = _
  cases hy : y (s.movedTo (s.image.cursor + offset)) with
  | ok a t =>
    have hback : returned s.image.cursor
        (Walker.moveTo (s.image.cursor + offset) >>= fun _ => y) s =
        .ok a (t.movedTo s.image.cursor) := by
      rw [returned, hmoved, hy]
      rfl
    rw [bind_run hback]
    rfl
  | error e t =>
    have hback : returned s.image.cursor
        (Walker.moveTo (s.image.cursor + offset) >>= fun _ => y) s =
        .error e (t.movedTo s.image.cursor) := by
      rw [returned, hmoved, hy]
      rfl
    rw [bind_error hback]
    rfl

/-- A look ahead, where the read itself is safe and leaves the last exit with its chunk. -/
theorem ahead_matches {offset : Nat} {x : Machine K α} {y : Walker K α}
    (hsum : s.image.cursor + offset < wordValues)
    (hx : Matches x y (s.movedTo (s.image.cursor + offset)))
    (hexit : ∀ a t, y (s.movedTo (s.image.cursor + offset)) = .ok a t → t.tracker.Exits) :
    Matches (ahead offset x) (Walker.ahead offset y) s := by
  have hmoved : Matches (plain (Walker.moveTo (s.image.cursor + offset)) >>= fun _ => x)
      (Walker.moveTo (s.image.cursor + offset) >>= fun _ => y) s := by
    refine (moveTo_matches _).bind fun _ t ht => ?_
    cases ht
    exact hx
  have hrest : Matches (ahead offset x) _ s :=
    .get (.sum hsum ((returning_matches s.image.cursor hmoved).bind
      (g := fun a => Walker.markLookahead s.stream.position >>= fun _ => Pure.pure a)
      fun a t ht => ?_))
  · exact ⟨hrest.runs.trans (congrArg lifted (ahead_eq offset y s).symm),
      fun d t h => hrest.sane d t ((ahead_eq offset y s).symm.trans h)⟩
  · obtain ⟨u, hu, rfl⟩ := returned_ok ht
    have hmark := markLookahead_matches (s := u.movedTo s.image.cursor) s.stream.position
      (hexit a u hu)
    exact hmark.bind fun _ _ _ => .pure _ _

theorem lookBytesKnown_matches {offset length : Nat} {known : List Bytes} (hs : Placed s)
    (hcursor : s.image.cursor + offset < allocationBound) (hexit : s.tracker.Exits)
    (hlength : length < smallValues) (hk : known.length ≤ wordValues)
    (hknown : ∀ bs ∈ known, bs.length = length) :
    Matches (lookBytesKnown offset length known) (Walker.lookBytesKnown offset length known) s := by
  have hplaced : Placed (s.movedTo (s.image.cursor + offset)) :=
    ⟨⟨hs.within, hs.capacity⟩, hcursor, hs.limit⟩
  refine ahead_matches (Nat.lt_trans hcursor (by decide))
    (readBytesKnown_matches hplaced hlength hk hknown) ?_
  intro a t ht
  exact ((Orderly.readBytesKnown length known).ok ht).exits hexit

theorem fixedSlice_matches {start stop : Nat} (hsum : start + (stop - start) < wordValues) :
    Matches (fixedSlice start stop) (Walker.fixedSlice start stop) s := by
  refine .inspect hsum (.looks ?_)
  rw [Walker.fixedSlice]
  split
  · exact Or.inr ⟨_, rfl⟩
  · split
    · exact Or.inl ⟨_, rfl⟩
    · exact Or.inr ⟨_, rfl⟩

theorem checksum32_matches {start stop : Nat} (hsum : start + (stop - start) < wordValues) :
    Matches (checksum32 start stop) (Walker.checksum32 start stop) s :=
  (fixedSlice_matches hsum).bind fun _ _ _ => .pure _ _

theorem checksum16_matches {start stop : Nat} (hsum : start + (stop - start) < wordValues) :
    Matches (checksum16 start stop) (Walker.checksum16 start stop) s :=
  (fixedSlice_matches hsum).bind fun _ _ _ => .pure _ _

end Machine

end DecisionWalk
