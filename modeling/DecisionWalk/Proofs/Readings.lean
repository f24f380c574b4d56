import DecisionWalk.Proofs.RoundTrip
import DecisionWalk.Proofs.Scanning

/-!
# What single requests accept

One rule for each request that a format makes: the bytes that it reads in a
parse, what it gives, and a bound on the decisions that it records. A request
for one of some known values accepts just those while the evil bit is off.
-/

set_option autoImplicit false

namespace DecisionWalk

open Image Walker Sampler

variable {K α β : Type} {e : Endian} {b : Bool} {seen depth : Nat} {past : Bytes}

theorem rawLength_le (w v : Nat) (hw : 1 ≤ w) : rawLength w v ≤ w := by
  rw [rawLength]
  split
  · exact hw
  · split
    · exact Nat.min_le_left _ _
    · exact Nat.le_refl _

theorem smallCode_length_le (w v : Nat) (hw : 1 ≤ w) : (smallCode w v).length ≤ 1 + w := by
  rw [smallCode_length]
  have := rawLength_le w v hw
  omega

theorem knownCode_length_le [DecidableEq α] {known : List α} {v : α} (evilCode : α → Bytes)
    (hv : v ∈ known) (hlen : known.length ≤ 256) :
    0 < (knownCode known evilCode v).length ∧ (knownCode known evilCode v).length ≤ 2 := by
  have hw := decisionWidth_le_one known.length hlen
  rw [knownCode, List.length_append, coinCode_length, choiceCode, if_pos hv, indexCode,
    belowCode_length]
  omega

theorem Endian.encode_eq_iff (e : Endian) {w v : Nat} {bs : Bytes} (hv : v < 256 ^ w) :
    bs = e.encode w v ↔ bs.length = w ∧ e.decode bs = v := by
  constructor
  · rintro rfl
    exact ⟨e.length_encode w v, by rw [e.decode_encode, Nat.mod_eq_of_lt hv]⟩
  · rintro ⟨rfl, rfl⟩
    exact (e.encode_decode bs).symm

def Block (width most : Nat) (holds : Bytes → Prop) : Lang Unit :=
  fun u _ _ n => u.length = width ∧ holds u ∧ n ≤ most

namespace Scanning

variable {rest : Bytes} {s t : State K}

theorem fixedSlice {front middle back : Bytes} (h : Scanning e b seen past rest s)
    (hpast : past = front ++ middle ++ back) :
    Walker.fixedSlice front.length (front.length + middle.length) s = .ok middle s := by
  have hlen : past.length = front.length + middle.length + back.length := by
    rw [hpast, List.length_append, List.length_append]
  have hin : front.length + middle.length ≤ s.image.bytes.size := by
    rw [h.bytes, List.size_toArray, List.length_append]
    omega
  rw [fixedSlice_run (Nat.le_add_right _ _) ?_ hin, Nat.add_sub_cancel_left, h.window, hpast,
    List.append_assoc, List.append_assoc, List.drop_left, List.take_left]
  apply region_fixed
  intro k hk
  exact h.fixed _ (by omega)

/-- What is passed again, or looked at ahead, leaves the parse where it is. -/
theorem revisited {bs : Bytes} {p : Nat} (h : Scanning e b seen past rest s)
    (hp : p + bs.length ≤ max past.length seen)
    (he : Emits bs { s with image := s.image.moveTo p } t) (ht : Sound .parse t) :
    Scanning e b seen past rest { t with image := t.image.moveTo s.image.cursor } := by
  have hw := he.writes
  have hsize : t.image.size = max s.image.size (p + bs.length) := hw.size
  have hreached := h.reached
  refine ⟨ht.moveTo _, ?_, ?_, ?_, h.cursor, ?_, ?_, ?_⟩
  · rw [he.rest]
    exact h.endian
  · rw [he.rest]
    exact h.evil
  · exact (he.input h.sound.mode).trans h.bytes
  · show past.length ≤ t.image.size
    omega
  · show t.image.size ≤ max past.length seen
    have := h.size
    omega
  · intro i hi
    show t.image.fixedAt i = true
    rw [hw.fixedAt, Bool.or_eq_true]
    exact Or.inl (h.fixed i hi)

end Scanning

namespace Scans

theorem alike {x y : Walker K α} {lang : Lang α} (hy : Scans e b seen depth past y lang)
    (h : ∀ rest s, Scanning e b seen past rest s → ∀ a t, x s = .ok a t ↔ y s = .ok a t) :
    Scans e b seen depth past x lang := by
  refine ⟨?_, ?_⟩
  · intro rest s a t hs hx
    exact hy.sound rest s a t hs ((h rest s hs a t).1 hx)
  · intro u v s a hs hl hroom hdepth
    obtain ⟨t, n, hx, hn⟩ := hy.complete u v s a hs hl hroom hdepth
    exact ⟨t, n, (h _ s hs a t).2 hx, hn⟩

section Requests

variable [DecidableEq K]

theorem uint (w : Nat) (h1 : 1 ≤ w) (h8 : w ≤ 8) :
    Scans e b seen depth past (Grammar.request (.uint w) : Grammar K Nat).run
      fun u _ a n => u.length = w ∧ a = e.decode u ∧ n ≤ 1 + w := by
  rw [Grammar.run_request, Request.answer, readUInt_eq w h1 h8]
  apply (field (Field.uint_lawful w h1 h8)).describe
  · rintro u _ a n ⟨hu, ha, rfl⟩
    obtain ⟨hlen, hdec⟩ := (e.encode_eq_iff ha).1 hu
    exact ⟨hlen, hdec.symm, smallCode_length_le w a h1⟩
  · rintro u _ a n ⟨rfl, rfl, -⟩
    exact ⟨_, (e.encode_decode u).symm, e.decode_lt u, rfl⟩

theorem uintKnown (w : Nat) (known : List Nat) (h1 : 1 ≤ w) (h8 : w ≤ 8) (hne : known ≠ [])
    (hlen : known.length ≤ 256) (hknown : ∀ v ∈ known, v < 256 ^ w) :
    Scans e false seen depth past (Grammar.request (.uintKnown w known) : Grammar K Nat).run
      fun u _ a n => u.length = w ∧ a = e.decode u ∧ a ∈ known ∧ n ≤ 2 := by
  rw [Grammar.run_request, Request.answer, readUIntKnown_eq w known h1 h8]
  apply (field (Field.uintKnown_lawful w known h1 h8 hne hlen hknown)).describe
  · rintro u _ a n ⟨hu, ha, rfl⟩
    have hmem : a ∈ known := ha.resolve_right fun h => Bool.noConfusion h.1
    obtain ⟨hwidth, hdec⟩ := (e.encode_eq_iff (hknown a hmem)).1 hu
    exact ⟨hwidth, hdec.symm, hmem, (knownCode_length_le _ hmem hlen).2⟩
  · rintro u _ a n ⟨rfl, rfl, hmem, -⟩
    exact ⟨_, (e.encode_decode u).symm, Or.inl hmem, rfl⟩

theorem bytesKnown (w : Nat) (known : List Bytes) (h1 : 1 ≤ w) (hne : known ≠ [])
    (hlen : known.length ≤ 256) (hknown : ∀ bs ∈ known, bs.length = w) :
    Scans e false seen depth past (Grammar.request (.bytesKnown w known) : Grammar K Bytes).run
      fun u _ a n => u = a ∧ a ∈ known ∧ n ≤ 2 := by
  rw [Grammar.run_request, Request.answer, readBytesKnown_eq w known hknown]
  apply (field (Field.bytesKnown_lawful w known h1 hne hlen hknown)).describe
  · rintro u _ a n ⟨hu, ha, rfl⟩
    have hmem : a ∈ known := ha.resolve_right fun h => Bool.noConfusion h.1
    exact ⟨hu, hmem, (knownCode_length_le _ hmem hlen).2⟩
  · rintro u _ a n ⟨rfl, hmem, -⟩
    exact ⟨_, rfl, Or.inl hmem, rfl⟩

theorem bytes (w : Nat) :
    Scans e b seen depth past (Grammar.request (.bytes w) : Grammar K Bytes).run
      fun u _ a n => u = a ∧ a.length = w ∧ n ≤ w := by
  rw [Grammar.run_request, Request.answer, readBytes_eq]
  apply (field (Field.bytes_lawful w)).describe
  · rintro u _ a n ⟨hu, rfl, rfl⟩
    have hw := decisionWidth_le_one Alphabet.plain.size (by decide)
    have hmul := Nat.mul_le_mul_left a.length hw
    rw [Alphabet.stringCode_length]
    exact ⟨hu, rfl, by omega⟩
  · rintro u _ a n ⟨rfl, hlen, -⟩
    exact ⟨_, rfl, hlen, rfl⟩

theorem string (w : Nat) :
    Scans e b seen depth past (Grammar.request (.string w) : Grammar K Bytes).run
      fun u _ a n => u = a ∧ a.length = w ∧ n ≤ 1 + w := by
  rw [Grammar.run_request, Request.answer, readString_eq]
  apply (field (Field.string_text_lawful w)).describe
  · rintro u _ a n ⟨hu, rfl, rfl⟩
    rw [textCode_length .plain (by decide) (by decide)]
    exact ⟨hu, rfl, Nat.le_refl _⟩
  · rintro u _ a n ⟨rfl, hlen, -⟩
    exact ⟨_, rfl, hlen, rfl⟩

theorem cstring (most : Nat) (hw : lengthWidth most ≤ 8) :
    Scans e b seen depth past (Grammar.request (.cstring most) : Grammar K Bytes).run
      fun u _ a n => u = a ++ [0] ∧ a.length ≤ most ∧ (∀ x ∈ a, x ≠ 0) ∧
        n ≤ 2 + lengthWidth most + a.length := by
  have hnul : ∀ a : Bytes, (∀ x ∈ a, Alphabet.nonNul.contains x = true) ↔ ∀ x ∈ a, x ≠ 0 :=
    fun a => forall₂_congr fun x _ => Alphabet.nonNul_contains x
  rw [Grammar.run_request, Request.answer, readCString_eq]
  apply (field (terminated_lawful most hw)).describe
  · rintro u _ a n ⟨hu, ⟨hlen, hz⟩, rfl⟩
    have hcode := smallCode_length_le (lengthWidth most) a.length (Nat.le_max_right _ _)
    refine ⟨hu, hlen, (hnul a).1 hz, ?_⟩
    rw [terminatedCode, List.length_append, textCode_length .nonNul (by decide) (by decide)]
    omega
  · rintro u _ a n ⟨hu, hlen, hz, -⟩
    exact ⟨_, hu, ⟨hlen, (hnul a).2 hz⟩, rfl⟩

/-- A count that is derived from other fields takes decisions but no bytes. -/
theorem count (most v : Nat) (hv : v < 256 ^ 8) :
    Scans e b seen depth past (Grammar.request (.count most (some v)) : Grammar K Nat).run
      fun u _ a n => u = [] ∧ a = v ∧ v ≤ most ∧ n ≤ 9 := by
  have hcodec := count_codec (K := K) (T := True) most
  have hshort := smallCode_length_le 8 v (by decide)
  rw [Grammar.run_request, Request.answer]
  refine ⟨?_, ?_⟩
  · intro rest s a t hs h
    obtain ⟨-, hle, hx⟩ := decideCount_ok h
    obtain ⟨rfl, rfl, -⟩ := hcodec.forced s v a t ⟨hle v rfl, hv⟩ hx
    refine ⟨[], rest, _, rfl, ⟨rfl, rfl, hle a rfl, hshort⟩, ?_, .coded s _⟩
    rw [List.append_nil]
    exact hs.recorded _
  · intro u rest s a hs hl hroom _
    obtain ⟨n, rfl, rfl, hle, -⟩ := hl
    have hfits := hroom 9 ⟨rfl, rfl, hle, Nat.le_refl _⟩
    refine ⟨s.recorded (smallCode 8 a), _, ?_, ⟨rfl, rfl, hle, hshort⟩, ?_,
      .coded s _⟩
    · rw [decideCount_run (fun _ => by simp) (fun w hw => by cases hw; exact hle)]
      exact hcodec.force s a ⟨hle, hv⟩ (by omega)
    · rw [List.append_nil]
      exact hs.recorded _

theorem reserve (w : Nat) (h1 : 1 ≤ w) (h8 : w ≤ 8) :
    Scans e b seen depth past (Grammar.request (.reserve w) : Grammar K Reserved).run
      fun u _ a n => u.length = w ∧ a = ⟨past.length, w, some (e.decode u)⟩ ∧ n = 0 := by
  have hrun : ∀ rest (s : State K), Scanning e b seen past rest s → w ≤ rest.length →
      Walker.reserve w s = (emit (rest.take w) >>= fun _ =>
        Pure.pure ⟨past.length, w, some (e.decode (rest.take w))⟩ : Walker K Reserved) s := by
    intro rest s hs hw
    have hin : s.image.cursor + w ≤ s.image.bytes.size := by
      rw [hs.bytes, hs.cursor, List.size_toArray, List.length_append]
      omega
    rw [reserve_found h1 h8 (found_parse hs.sound s.image.cursor w hin), hs.window, hs.cursor,
      List.drop_left, hs.endian]
    rfl
  rw [Grammar.run_request, Request.answer]
  refine ⟨?_, ?_⟩
  · intro rest s a t hs h
    have hw : w ≤ rest.length := by
      rw [Walker.reserve, checkWidth_run h1 h8] at h
      obtain ⟨r, _, hx, -⟩ := bind_ok.1 (show (Walker.found s.image.cursor w >>= _) s = _ from h)
      have hin := (found_parse_ok hs.sound hx).2.2
      rw [hs.bytes, hs.cursor, List.size_toArray, List.length_append] at hin
      omega
    rw [hrun rest s hs hw] at h
    obtain ⟨_, t', hx, h'⟩ := bind_ok.1 h
    cases h'
    obtain ⟨v, hrest, ht, hstep⟩ := hs.emit_reads hx
    exact ⟨_, v, 0, hrest, ⟨List.length_take_of_le hw, rfl, rfl⟩, ht, hstep⟩
  · intro u v s a hs hl _ _
    obtain ⟨n, rfl, rfl, rfl⟩ := hl
    obtain ⟨t, hx, ht, hstep⟩ := hs.emits
    refine ⟨t, 0, ?_, ⟨rfl, rfl, rfl⟩, ht, hstep⟩
    rw [hrun _ s hs (by rw [List.length_append]; omega), List.take_left, bind_run hx, pure_run]

/-- A reserved field must hold the value that is computed for it later. -/
theorem patch {front middle back : Bytes} {w : Nat} (value : Nat)
    (hpast : past = front ++ middle ++ back) (hw : middle.length = w) :
    Scans e b seen depth past (Grammar.request (.patch
        ⟨front.length, w, some (e.decode middle)⟩ value) : Grammar K Unit).run
      fun u _ _ n => u = [] ∧ e.decode middle = value ∧ n = 0 := by
  subst hw
  have hlen : past.length = front.length + middle.length + back.length := by
    rw [hpast, List.length_append, List.length_append]
  have henc : ∀ s : State K, s.endian = e →
      s.endian.encode middle.length (e.decode middle) = middle := by
    rintro s rfl
    exact s.endian.encode_decode middle
  have hscan : ∀ rest (s u : State K), Scanning e b seen past rest s →
      emit middle { s with image := s.image.moveTo front.length } = .ok () u →
      Scanning e b seen (past ++ []) rest { u with image := u.image.moveTo s.image.cursor } ∧
        Scanned 0 s { u with image := u.image.moveTo s.image.cursor } := by
    intro rest s u hs h
    obtain ⟨he, hu, -⟩ := emit_ok (hs.sound.moveTo front.length) h
    rw [List.append_nil]
    have hstep := Scanned.emitted he
    exact ⟨hs.revisited (by omega) he hu, hstep.stream, hstep.depth, hstep.maxDepth⟩
  rw [Grammar.run_request, Request.answer]
  refine ⟨?_, ?_⟩
  · intro rest s a t hs h
    have hreached := hs.reached
    have hcursor := hs.cursor
    obtain ⟨hheld, u, hx, rfl⟩ := patch_ok hs.sound (by omega) (by omega) h
    cases hheld rfl
    rw [henc s hs.endian] at hx
    obtain ⟨ht, hstep⟩ := hscan rest s u hs hx
    exact ⟨[], rest, 0, rfl, ⟨rfl, rfl, rfl⟩, ht, hstep⟩
  · intro u v s a hs hl _ _
    obtain ⟨n, rfl, rfl, rfl⟩ := hl
    have hreached := hs.reached
    have hcursor := hs.cursor
    have hst : (s.image.moveTo front.length).Stands middle := by
      rw [hs.stands_at middle (by omega), hpast]
      simp only [List.append_assoc, List.drop_left, List.prefix_append]
    obtain ⟨w, hx, -, -⟩ := emit_parse (hs.sound.moveTo front.length) hst
    obtain ⟨ht, hstep⟩ := hscan _ s w hs hx
    rw [← henc s hs.endian] at hx
    exact ⟨_, 0, patch_run hs.sound (by omega) (by omega) (fun _ => rfl) hx, ⟨rfl, rfl, rfl⟩, ht,
      hstep⟩

/-- A byte that is skipped may be any byte, but it must be there. -/
theorem skipOne (hseen : seen ≤ past.length) :
    Scans e b seen depth past (Grammar.request (.skip 1) : Grammar K Unit).run
      (Block 1 1 fun _ => True) := by
  have hbyte : Scans e b seen depth past (Walker.readUIntFull (K := K) 1)
      fun u _ a n => u.length = 1 ∧ a = e.decode u ∧ n ≤ 1 := by
    rw [readUIntFull_eq 1 (by decide) (by decide)]
    apply (field (Field.uintFull_lawful 1 (by decide))).describe
    · rintro u _ a n ⟨hu, ha, rfl⟩
      obtain ⟨hlen, hdec⟩ := (e.encode_eq_iff ha).1 hu
      exact ⟨hlen, hdec.symm, Nat.le_of_eq (length_leBytes 1 a)⟩
    · rintro u _ a n ⟨hlen, rfl, -⟩
      have hlt := e.decode_lt u
      rw [hlen] at hlt
      exact ⟨_, (e.encode_eq_iff hlt).2 ⟨hlen, rfl⟩, hlt, rfl⟩
  have hgap : Scans e b seen depth past
      (Walker.readUIntFull 1 >>= fun _ => Walker.moveTo (past.length + 1) : Walker K Unit)
      (Block 1 1 fun _ => True) := by
    apply hbyte.bind (fun _ _ u _ _ n => u = [] ∧ n = 0)
    · rintro a u ⟨_, _, hu, -⟩
      apply (observe (fun _ => ()) ?_).describe
      · rintro w _ _ n ⟨hw, -, hn⟩
        exact ⟨hw, hn⟩
      · rintro w _ _ n ⟨hw, hn⟩
        exact ⟨n, hw, rfl, hn⟩
      · intro rest s hs
        have hcur : s.image.cursor = past.length + 1 := by
          rw [hs.cursor, List.length_append, hu]
        rw [← hcur]
        rfl
    · rintro u w v a _ n m ⟨hu, -, hn⟩ ⟨rfl, rfl⟩
      rw [List.append_nil]
      exact ⟨hu, trivial, hn⟩
    · rintro r v _ n ⟨hr, -, -⟩
      exact ⟨r, [], e.decode r, (List.append_nil r).symm, ⟨0, hr, rfl, Nat.zero_le _⟩, 0, rfl, rfl⟩
  rw [Grammar.run_request, Request.answer]
  apply hgap.alike
  intro rest s hs a t
  show seek (s.image.cursor + 1) s = .ok a t ↔ _
  have hsize := hs.forgets hseen
  have hcur := hs.cursor
  have hlimit := hs.limit
  by_cases hroom : s.image.limit < s.image.cursor + 1
  · refine iff_of_false (Follows.seek_past hroom t a) ?_
    intro h
    obtain ⟨u, v, n, rfl, hu, -⟩ := hgap.sound rest s a t hs h
    rw [List.length_append, hu.1] at hlimit
    omega
  · have hfill : fillGap (K := K) 1 = (readUIntFull 1 >>= fun _ => Pure.pure ()) := rfl
    rw [Follows.seek_edge (by omega) (by omega), hcur, hfill, bind_assoc]
    simp only [pure_bind]

theorem endOfFile (threshold : Nat) (h0 : 0 < threshold) (h255 : threshold ≤ 255) :
    Scans e b seen depth past (Grammar.request (.endOfFile threshold) : Grammar K Bool).run
      fun u v a n => u = [] ∧ a = decide (v = []) ∧ n = 1 := by
  have hcodec := endCoin_codec (K := K) (T := True) threshold h0 h255
  have hknown : ∀ rest (s : State K), Scanning e b seen past rest s →
      knownEnd s = .ok (some (decide (rest = []))) s := by
    intro rest s hs
    have hends : s.image.limit ≤ s.image.cursor ↔ rest = [] := by
      rw [hs.limit, hs.cursor, ← List.length_eq_zero_iff]
      omega
    rw [knownEnd, hs.sound.mode]
    simp only [hends]
  have hlooked : ∀ rest (s : State K) a, Scanning e b seen past rest s →
      Scanning e b seen (past ++ []) rest ((s.recorded (endCode a)).tracking
        (s.tracker.lookahead ⟨s.stream.position, (s.recorded (endCode a)).stream.position⟩)) ∧
      Scanned 1 s ((s.recorded (endCode a)).tracking
        (s.tracker.lookahead ⟨s.stream.position, (s.recorded (endCode a)).stream.position⟩)) := by
    intro rest s a hs
    rw [List.append_nil]
    exact ⟨(hs.recorded _).tracking _, ⟨_, coinCode_length _, rfl⟩, Tracker.lookahead_depth _ _,
      Tracker.lookahead_maxDepth _ _⟩
  rw [Grammar.run_request, Request.answer]
  refine ⟨?_, ?_⟩
  · intro rest s a t hs h
    rw [endOfFile_run threshold (hknown rest s hs)] at h
    obtain ⟨c, s', h1, h2⟩ := bind_ok.1 h
    obtain ⟨rfl, rfl, -⟩ := hcodec.forced s _ c s' trivial h1
    cases h2
    exact ⟨[], rest, 1, rfl, ⟨rfl, rfl, rfl⟩, hlooked rest s _ hs⟩
  · intro u v s a hs hl hroom _
    obtain ⟨n, rfl, rfl, rfl⟩ := hl
    have hfits := hroom 1 ⟨rfl, rfl, rfl⟩
    refine ⟨_, 1, ?_, ⟨rfl, rfl, rfl⟩, hlooked v s (decide (v = [])) hs⟩
    rw [endOfFile_run threshold (hknown v s hs), bind_run (hcodec.force s _ trivial ?_)]
    · rfl
    · rw [endCode, coinCode_length]
      exact hfits

theorem drop_ahead (past v : Bytes) (off : Nat) :
    (past ++ v).drop (past.length + off) = v.drop off := by
  rw [← List.drop_drop, List.drop_left]

section Looking

variable {off : Nat} {rest a d : Bytes} {s u : State K}

omit [DecidableEq K]

theorem looked_back (hs : Scanning e b seen past rest s)
    (hseen : past.length + off + a.length ≤ seen)
    (he : Emits a (State.recorded { s with image := s.image.moveTo (s.image.cursor + off) } d) u)
    (hu : Sound .parse u) :
    Scanning e b seen (past ++ []) rest (u.back s) ∧ Scanned d.length s (u.back s) := by
  have hcur := hs.cursor
  have hscan := (hs.recorded d).revisited (by omega) he hu
  have hstep := (Scanned.coded
    { s with image := s.image.moveTo (s.image.cursor + off) } d).trans (.emitted he)
  rw [List.append_nil]
  exact ⟨hscan.tracking _, hstep.stream, (Tracker.lookahead_depth _ _).trans hstep.depth,
    (Tracker.lookahead_maxDepth _ _).trans hstep.maxDepth⟩

theorem stands_ahead (hs : Scanning e b seen past rest s) (hroom : off + a.length ≤ rest.length) :
    (s.image.moveTo (s.image.cursor + off)).Stands a ↔ a = (rest.drop off).take a.length := by
  rw [hs.cursor, hs.stands_at a (by omega), drop_ahead, List.prefix_iff_eq_take]

end Looking

/-- A look ahead reads nothing, but it fixes the bytes that it saw. -/
theorem lookBytes (off w : Nat) (known : List Bytes) (h1 : 1 ≤ w) (hne : known ≠ [])
    (hlen : known.length ≤ 256) (hknown : ∀ bs ∈ known, bs.length = w)
    (hseen : past.length + off + w ≤ seen) :
    Scans e false seen depth past
      (Grammar.request (.lookBytes off w known) : Grammar K Bytes).run
      fun u v a n => u = [] ∧ a = (v.drop off).take w ∧ a ∈ known ∧ 0 < n ∧ n ≤ 2 := by
  have hf := Field.bytesKnown_lawful (K := K) w known h1 hne hlen hknown
  rw [Grammar.run_request, Request.answer, lookBytesKnown, readBytesKnown_eq w known hknown]
  refine ⟨?_, ?_⟩
  · intro rest s a t hs h
    obtain ⟨u, hx, rfl⟩ := ahead_ok h
    obtain ⟨hfits, hemit⟩ := hf.parsed (hs.sound.moveTo _) hx
    have hmem : a ∈ known := hfits.resolve_right fun h =>
      Bool.noConfusion ((congrArg EvilBit.allowed hs.evil).symm.trans h.1)
    obtain ⟨he, hu, hin, hst⟩ := emit_ok ((hs.sound.moveTo _).recorded _) hemit
    obtain rfl := hknown a hmem
    have hlimit : s.image.cursor + off + a.length ≤ s.image.limit := hin
    rw [hs.cursor, hs.limit] at hlimit
    have hseg := (stands_ahead (a := a) hs (by omega)).1 (hst rfl)
    have hcost := knownCode_length_le Alphabet.plain.stringCode hmem hlen
    exact ⟨[], rest, _, rfl, ⟨rfl, hseg, hmem, hcost⟩, looked_back hs hseen he hu⟩
  · intro u v s a hs hl hroom _
    obtain ⟨n, rfl, ha, hmem, -, -⟩ := hl
    obtain rfl := hknown a hmem
    have hcost := knownCode_length_le Alphabet.plain.stringCode hmem hlen
    have hfits := hroom _ ⟨rfl, ha, hmem, hcost⟩
    have hroom' : off + a.length ≤ v.length := by
      have hl := congrArg List.length ha
      rw [List.length_take, List.length_drop] at hl
      omega
    have hst := (stands_ahead hs hroom').2 ha
    have hx := hf.parses (a := a) (hs.sound.moveTo (s.image.cursor + off)) (Or.inl hmem) hst hfits
    obtain ⟨t, ht, he, hu⟩ := emit_parse ((hs.sound.moveTo _).recorded _) hst
    replace hx := hx.trans (bind_run ht)
    exact ⟨_, _, ahead_run hx, ⟨rfl, ha, hmem, hcost⟩, looked_back hs hseen he hu⟩

theorem tell (rest : Bytes) (s : State K) (h : Scanning e b seen past rest s) :
    (Grammar.request .tell : Grammar K Nat).run s = .ok past.length s := by
  rw [Grammar.run_request, Request.answer, Walker.tell, h.cursor]

theorem remaining (rest : Bytes) (s : State K) (h : Scanning e b seen past rest s) :
    (Grammar.request .remaining : Grammar K Nat).run s = .ok rest.length s := by
  rw [Grammar.run_request, Request.answer, Walker.remaining, State.remaining, h.limit, h.cursor,
    Nat.add_sub_cancel_left]

theorem fileSize (hseen : seen ≤ past.length) (rest : Bytes) (s : State K)
    (h : Scanning e b seen past rest s) :
    (Grammar.request .fileSize : Grammar K Nat).run s = .ok past.length s := by
  rw [Grammar.run_request, Request.answer, Walker.fileSize, h.forgets hseen]

theorem checksum32 {front middle : Bytes} (hpast : past = front ++ middle) (rest : Bytes)
    (s : State K) (h : Scanning e b seen past rest s) :
    (Grammar.request (.checksum32 front.length past.length) : Grammar K Nat).run s =
      .ok (crc32 middle).toNat s := by
  have hslice := h.fixedSlice (hpast.trans (List.append_nil _).symm)
  rw [Grammar.run_request, Request.answer, Walker.checksum32, hpast, List.length_append,
    bind_run hslice, pure_run]

theorem checksum16 {front middle : Bytes} (hpast : past = front ++ middle) (rest : Bytes)
    (s : State K) (h : Scanning e b seen past rest s) :
    (Grammar.request (.checksum16 front.length past.length) : Grammar K Nat).run s =
      .ok (crc16 middle).toNat s := by
  have hslice := h.fixedSlice (hpast.trans (List.append_nil _).symm)
  rw [Grammar.run_request, Request.answer, Walker.checksum16, hpast, List.length_append,
    bind_run hslice, pure_run]

/-- What follows a check that `need` bytes are left. -/
theorem guarded {g : Grammar K α} {lang : Lang α} (need : Nat) (code : Int) (reason : String)
    (hg : Scans e b seen depth past g.run lang) :
    Scans e b seen depth past (Grammar.request .remaining >>= fun room =>
        if room < need then .stop code reason else g).run
      fun u v a n => need ≤ (u ++ v).length ∧ lang u v a n := by
  apply given (fun room u v a n => need ≤ room ∧ lang u v a n) List.length remaining
  intro rest
  by_cases hroom : rest.length < need
  · rw [if_pos hroom]
    apply (refuses fun s a t => throw_not_ok _ s t a).describe
    · exact fun _ _ _ _ h => h.elim
    · rintro u v a n ⟨hneed, -⟩
      omega
  · rw [if_neg hroom]
    apply hg.describe
    · exact fun _ _ _ _ h => ⟨by omega, h⟩
    · exact fun _ _ _ n h => ⟨n, h.2⟩

/-- Blocks one after the other make a block. -/
theorem blocks {g : Grammar K Unit} {f : Unit → Grammar K Unit} {w w' c c' : Nat}
    {p p' : Bytes → Prop} (hg : Scans e b seen depth past g.run (Block w c p))
    (hf : ∀ u, u.length = w → Scans e b seen depth (past ++ u) (f ()).run (Block w' c' p')) :
    Scans e b seen depth past (g >>= f).run
      (Block (w' + w) (c + c') fun r => p (r.take w) ∧ p' (r.drop w)) := by
  apply hg.seq (fun _ _ => Block w' c' p')
  · rintro ⟨⟩ u ⟨_, _, hu, -⟩
    exact hf u hu
  · rintro u v _ _ _ n m ⟨rfl, hp, hn⟩ ⟨rfl, hp', hm⟩
    refine ⟨List.length_append.trans (Nat.add_comm _ _), ⟨?_, ?_⟩, by omega⟩
    · rwa [List.take_left]
    · rwa [List.drop_left]
  · rintro r v _ n ⟨hr, ⟨hp, hp'⟩, -⟩
    refine ⟨r.take w, r.drop w, (), (List.take_append_drop w r).symm,
      ⟨0, ?_, hp, Nat.zero_le _⟩, 0, ?_, hp', Nat.zero_le _⟩
    · rw [List.length_take]
      omega
    · rw [List.length_drop]
      omega

theorem joined {g : Grammar K Unit} {f : Unit → Grammar K Unit} {w w' c c' : Nat}
    {p p' : Bytes → Prop} (hg : Scans e b seen depth past g.run (Block w c p))
    (hf : ∀ u, u.length = w → Scans e b seen depth (past ++ u) (f ()).run (Block w' c' p')) :
    Scans e b seen depth past (g >>= f).run (Block (w' + w) (c + c') fun r =>
      ∃ u v, r = u ++ v ∧ u.length = w ∧ p u ∧ v.length = w' ∧ p' v) := by
  apply (hg.blocks hf).describe
  · rintro r _ _ n ⟨hr, ⟨hp, hp'⟩, hn⟩
    refine ⟨hr, ⟨r.take w, r.drop w, (List.take_append_drop w r).symm, ?_, hp, ?_, hp'⟩, hn⟩
    · rw [List.length_take]
      omega
    · rw [List.length_drop]
      omega
  · rintro _ _ _ n ⟨hr, ⟨u, v, rfl, rfl, hp, -, hp'⟩, hn⟩
    refine ⟨n, hr, ⟨?_, ?_⟩, hn⟩
    · rwa [List.take_left]
    · rwa [List.drop_left]

theorem anyUInt (w : Nat) (h1 : 1 ≤ w) (h8 : w ≤ 8) :
    Scans e b seen depth past (Functor.discard (Grammar.request (.uint w)) : Grammar K Unit).run
      (Block w (1 + w) fun _ => True) := by
  apply (uint w h1 h8).discard
  intro u v n
  exact ⟨fun ⟨_, hu, _, hn⟩ => ⟨hu, trivial, hn⟩, fun ⟨hu, _, hn⟩ => ⟨_, hu, rfl, hn⟩⟩

theorem oneOf (w : Nat) (known : List Nat) (h1 : 1 ≤ w) (h8 : w ≤ 8) (hne : known ≠ [])
    (hlen : known.length ≤ 256) (hknown : ∀ v ∈ known, v < 256 ^ w) :
    Scans e false seen depth past
      (Functor.discard (Grammar.request (.uintKnown w known)) : Grammar K Unit).run
      (Block w 2 fun u => e.decode u ∈ known) := by
  apply (uintKnown w known h1 h8 hne hlen hknown).discard
  intro u v n
  constructor
  · rintro ⟨_, hu, rfl, hmem, hn⟩
    exact ⟨hu, hmem, hn⟩
  · rintro ⟨hu, hmem, hn⟩
    exact ⟨_, hu, rfl, hmem, hn⟩

theorem exactly (w v : Nat) (h1 : 1 ≤ w) (h8 : w ≤ 8) (hv : v < 256 ^ w) :
    Scans e false seen depth past
      (Functor.discard (Grammar.request (.uintKnown w [v])) : Grammar K Unit).run
      (Block w 2 fun u => u = e.encode w v) := by
  have hmem : ∀ u ∈ [v], u < 256 ^ w := by
    intro u hu
    rw [List.mem_singleton.1 hu]
    exact hv
  apply (oneOf w [v] h1 h8 (List.cons_ne_nil _ _) (by simp) hmem).describe
  · rintro u _ _ n ⟨hu, hdec, hn⟩
    exact ⟨hu, (e.encode_eq_iff hv).2 ⟨hu, List.mem_singleton.1 hdec⟩, hn⟩
  · rintro u _ _ n ⟨hu, henc, hn⟩
    exact ⟨n, hu, List.mem_singleton.2 ((e.encode_eq_iff hv).1 henc).2, hn⟩

theorem oneOfBytes (w : Nat) (known : List Bytes) (h1 : 1 ≤ w) (hne : known ≠ [])
    (hlen : known.length ≤ 256) (hknown : ∀ bs ∈ known, bs.length = w) :
    Scans e false seen depth past
      (Functor.discard (Grammar.request (.bytesKnown w known)) : Grammar K Unit).run
      (Block w 2 fun u => u ∈ known) := by
  apply (bytesKnown w known h1 hne hlen hknown).discard
  intro u v n
  constructor
  · rintro ⟨_, rfl, hmem, hn⟩
    exact ⟨hknown u hmem, hmem, hn⟩
  · rintro ⟨-, hmem, hn⟩
    exact ⟨u, rfl, hmem, hn⟩

theorem literal (w : Nat) (bs : Bytes) (h1 : 1 ≤ w) (hbs : bs.length = w) :
    Scans e b seen depth past (Functor.discard
        (Grammar.underEvil false (Grammar.request (.bytesKnown w [bs]))) : Grammar K Unit).run
      (Block w 2 fun u => u = bs) := by
  have hknown : ∀ u ∈ [bs], u.length = w := by
    intro u hu
    rw [List.mem_singleton.1 hu]
    exact hbs
  apply ((bytesKnown w [bs] h1 (List.cons_ne_nil _ _) (by simp) hknown).underEvil false).discard
  intro u v n
  constructor
  · rintro ⟨_, rfl, hmem, hn⟩
    exact ⟨hknown u hmem, List.mem_singleton.1 hmem, hn⟩
  · rintro ⟨-, rfl, hn⟩
    exact ⟨u, rfl, List.mem_singleton.2 rfl, hn⟩

theorem anyBytes (w : Nat) :
    Scans e b seen depth past
      (Functor.discard (Grammar.request (.bytes w)) : Grammar K Unit).run
      (Block w w fun _ => True) := by
  apply (bytes w).discard
  intro u v n
  exact ⟨fun ⟨_, hu, hw, hn⟩ => ⟨hu ▸ hw, trivial, hn⟩, fun ⟨hu, _, hn⟩ => ⟨u, rfl, hu, hn⟩⟩

theorem anyString (w : Nat) :
    Scans e b seen depth past
      (Functor.discard (Grammar.request (.string w)) : Grammar K Unit).run
      (Block w (1 + w) fun _ => True) := by
  apply (string w).discard
  intro u v n
  exact ⟨fun ⟨_, hu, hw, hn⟩ => ⟨hu ▸ hw, trivial, hn⟩, fun ⟨hu, _, hn⟩ => ⟨u, rfl, hu, hn⟩⟩

/-- A whole file is parsed when it is in the language of the grammar, with nothing behind it. -/
theorem accepts {body : Grammar K Unit} {lang : Lang Unit} {limits : Limits} {input : Bytes}
    (hbody : Scans e false 0 2 [] body.run lang)
    (hcost : ∀ u v n, lang u v () n → n ≤ 2 * u.length)
    (hstops : (Grammar.request (.setEndian e) >>= fun _ => body).StopsIn (· ≠ 0))
    (hevil : limits.allowEvil = false) (hdepth : 2 ≤ limits.maxDepth)
    (hstream : 2 * input.length ≤ limits.streamCapacity) :
    (∃ w, (Grammar.request (.setEndian e) >>= fun _ => body).parse limits input = .ok w) ↔
      ∃ n, lang input [] () n := by
  have hstart : Scanning e false 0 [] input
      { (State.parsing limits input : State K) with endian := e } := by
    have hat := State.parsing_at (K := K) limits input
    refine ⟨hat.sound.like rfl rfl rfl, rfl, congrArg EvilBit.mk hevil, rfl, rfl, Nat.le_refl _,
      Nat.le_refl _, ?_⟩
    intro i hi
    exact absurd hi (Nat.not_lt_zero i)
  have hrun : ∀ s : State K, (Grammar.request (.setEndian e) >>= fun _ => body).run s =
      body.run { s with endian := e } := by
    intro s
    rw [Grammar.run_bind]
    rfl
  constructor
  · rintro ⟨w, h⟩
    rw [Grammar.parse_run] at h
    obtain ⟨t, ws, hx, hfin⟩ := Grammar.conclude_ok hstops h
    rw [hrun] at hx
    obtain ⟨u, v, n, rfl, hl, ht, -⟩ := hbody.sound input _ _ t hstart hx
    have hcover := ((State.finish_iff t _).1 hfin).1
    rw [ht.sound.input, if_pos rfl, ht.bytes, ht.forgets (Nat.zero_le _)] at hcover
    simp only [List.nil_append, List.size_toArray, List.length_append, Option.getD_some] at hcover
    have hv : v = [] := List.length_eq_zero_iff.1 (by omega)
    subst hv
    rw [List.append_nil]
    exact ⟨n, hl⟩
  · intro hl
    have hroom : ∀ n, lang input [] () n → 0 + n ≤ limits.streamCapacity := by
      intro n hn
      have := hcost input [] n hn
      omega
    rw [← List.append_nil input] at hstart
    obtain ⟨t, n, hx, -, ht, -⟩ := hbody.complete input [] _ () hstart hl hroom
      (show 0 + 2 ≤ limits.maxDepth by omega)
    rw [List.append_nil] at hx
    have hfin : t.finish = .ok (t.ended, t.watches) := by
      rw [State.finish_iff, ht.sound.input, if_pos rfl, ht.bytes, ht.forgets (Nat.zero_le _)]
      simp
    refine ⟨t.ended, ?_⟩
    rw [Grammar.parse_run, hrun, hx]
    simp only [Grammar.conclude, hfin, Except.map]

end Requests

end Scans

end DecisionWalk
