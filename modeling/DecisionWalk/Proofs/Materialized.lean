import DecisionWalk.Proofs.Fields
import DecisionWalk.Proofs.Sparing

/-!
# Fixed bytes are decoded

A lookahead fixes bytes of a file that is still being generated. A request that
comes to them later finds them as a parse finds its input: it gives back what
they spell and records the decisions for it. Requests that reach into fixed
bytes only in part are refused, and no fixed byte is ever written over.
-/

set_option autoImplicit false

namespace DecisionWalk

open Walker Image

variable {K α β : Type} {s t p : State K} {n : Nat}

/-- A parse that stands where a generation stands, over an input with the same `n` bytes there. -/
structure Beside (n : Nat) (s p : State K) : Prop where
  position : p.stream.position = s.stream.position
  capacity : p.stream.capacity = s.stream.capacity
  endian : p.endian = s.endian
  evil : p.evil = s.evil
  cursor : p.image.cursor = s.image.cursor
  inside : s.image.cursor + n ≤ p.image.bytes.size
  bytes : ∀ k, k < n → p.image.byteAt (s.image.cursor + k) = s.image.byteAt (s.image.cursor + k)

namespace Walker

theorem bind_like {x y : Walker K α} (h : x s = y s) (f : α → Walker K β) :
    (x >>= f) s = (y >>= f) s := by
  cases hy : y s with
  | ok a t => rw [bind_run (h.trans hy), bind_run hy]
  | error e t => rw [bind_error (h.trans hy), bind_error hy]

/-- Both walks find the same bytes. -/
theorem found_beside (hs : Generating s) (hp : p.mode = .parse) (hc : p.image.Coherent .parse)
    (hn : n ≠ 0) (hfixed : ∀ k, k < n → s.image.fixedAt (s.image.cursor + k) = true)
    (hb : Beside n s p) :
    ∃ bs, found s.image.cursor n s = .ok (some bs) s ∧
      found p.image.cursor n p = .ok (some bs) p := by
  have hin : s.image.cursor + n ≤ s.image.bytes.size := by
    have hlast := hs.coherent.fixed_lt _ (hfixed (n - 1) (by omega))
    have hle := hs.coherent.size_le
    omega
  have hwindow : p.image.window p.image.cursor n = s.image.window s.image.cursor n := by
    have hlen := window_length s.image s.image.cursor n hin
    have hsame := window_eq p.image p.image.cursor (s.image.window s.image.cursor n)
      (by rw [hlen, hb.cursor]; exact hb.inside) ?_
    · rw [hlen] at hsame
      exact hsame
    · intro k hk
      have hget := window_get s.image s.image.cursor n k hin (by omega)
      rw [List.getElem?_eq_getElem hk] at hget
      rw [Option.some.inj hget, hb.cursor]
      exact hb.bytes k (by omega)
  refine ⟨s.image.window s.image.cursor n, ?_, ?_⟩
  · rw [found]
    simp only [hs.mode, region_fixed _ _ _ hfixed, slice_eq _ _ n hin]
  · have hinside : p.image.cursor + n ≤ p.image.bytes.size := by
      rw [hb.cursor]
      exact hb.inside
    rw [found]
    simp only [hp, slice_eq _ _ n hinside, hc.input, hwindow]
    simp [hinside]

end Walker

structure Fills (n : Nat) (decode : Endian → Bytes → α) (encode : Endian → α → Bytes)
    (draw : Option α → Walker K α) : Prop where
  free : Draws True (draw none)
  forced : ∀ v, Draws False (draw (some v))
  kept : ∀ e bs s w t, bs.length = n → draw (some (decode e bs)) s = .ok w t → encode e w = bs
  drawn : ∀ e s w t, draw none s = .ok w t → (encode e w).length = n

def WalkError.unplaced : WalkError → WalkError
  | .structural _ _ v => .structural 0 "" v
  | e => e

theorem Cause.raised_unplaced (cause : Cause) (s p : State K) :
    (cause.raised s).unplaced = (cause.raised p).unplaced := by
  cases cause with
  | violation v => rfl
  | capacity resource limit => rfl
  | defect d => rfl

def SameRecord (s t p q : State K) : Prop :=
  ∃ e, t.stream.consumed = s.stream.consumed ++ e ∧ q.stream.consumed = p.stream.consumed ++ e

/-- Both calls gave the same value, or failed for the same reason, and recorded the same. -/
def Accord (s p : State K) : EStateM.Result WalkError (State K) α →
    EStateM.Result WalkError (State K) α → Prop
  | .ok a t, .ok b q => a = b ∧ SameRecord s t p q
  | .error e t, .error d q => e.unplaced = d.unplaced ∧ SameRecord s t p q
  | _, _ => False

theorem SameRecord.recorded (s p : State K) (e : Bytes) :
    SameRecord s (s.recorded e) p (p.recorded e) :=
  ⟨e, Stream.recorded_consumed _ _, Stream.recorded_consumed _ _⟩

structure Decoding (n : Nat) (x : Walker K α) : Prop where
  refuses : ∀ s, s.mode = .generate → s.image.region s.image.cursor n = .mixed →
    ∃ v, x s = violation v s
  alike : ∀ s p, Generating s → p.mode = .parse → p.image.Coherent .parse → n ≠ 0 →
    (∀ k, k < n → s.image.fixedAt (s.image.cursor + k) = true) → Beside n s p →
    Accord s p (x s) (x p)
  sparing : Sparing x

namespace Field

variable {f : Field K α} {r : Option α} {v : α} {bs : Bytes}

theorem read_run (h : f.find s = .ok r s) : f.read s =
    (f.draw r >>= fun v => get >>= fun u => emit (f.encode u.endian v) >>= fun _ => pure v) s :=
  bind_run h

/-- A read leaves behind a drawn value, or that and its bytes. -/
theorem read_after (h : f.find s = .ok r s) (hd : Draws True (f.draw r)) :
    ∃ e, f.read.after s = s.recorded e ∨
      ∃ v, f.draw r s = .ok v (s.recorded e) ∧
        f.read.after s = (emit (f.encode s.endian v)).after (s.recorded e) := by
  obtain ⟨e, he⟩ := hd.after s
  refine ⟨e, ?_⟩
  cases hx : f.draw r s with
  | error w t =>
    left
    rw [after, read_run h, ← after, after_bind_error hx, ← after_error hx, he]
  | ok v t =>
    obtain rfl := (after_ok hx).symm.trans he
    refine Or.inr ⟨v, rfl, ?_⟩
    rw [after, read_run h, ← after, after_bind_ok hx]
    exact after_bind_pure (emit (f.encode s.endian v)) (fun _ => v) (s.recorded e)

/-- A read spares what is fixed when it emits over free bytes only, or over the bytes themselves. -/
theorem read_spares (hm : s.mode = .generate) (h : f.find s = .ok r s) (hd : Draws True (f.draw r))
    (hemit : ∀ v t, f.draw r s = .ok v t →
      (∀ k, k < (f.encode s.endian v).length → s.image.fixedAt (s.image.cursor + k) = false) ∨
        s.image.Stands (f.encode s.endian v)) : Spared s (f.read.after s) := by
  obtain ⟨e, hafter | ⟨v, hv, hafter⟩⟩ := read_after h hd
  · rw [hafter]
    exact fun i hi => ⟨hi, rfl⟩
  · rw [hafter]
    exact emit_spares (s := s.recorded e) hm (hemit v _ hv)

/-- A value that is found in bytes that stand in both walks is read alike by both. -/
theorem read_alike (hs : Generating s) (hp : p.mode = .parse) (hc : p.image.Coherent .parse)
    (hplace : SamePlace False s p) (hendian : p.endian = s.endian)
    (hfound : f.find s = .ok (some v) s)
    (hfound' : f.find p = .ok (some v) p) (hforced : Draws False (f.draw (some v)))
    (hst : s.image.Stands bs) (hst' : p.image.Stands bs)
    (hkept : ∀ w t, f.draw (some v) s = .ok w t → f.encode s.endian w = bs) :
    Accord s p (f.read s) (f.read p) := by
  obtain ⟨e, o, -, hdraw⟩ := hforced s
  have hd := hdraw s (.refl s)
  have hd' := hdraw p hplace
  rw [read_run hfound, read_run hfound']
  cases o with
  | error cause =>
    rw [bind_error hd, bind_error hd']
    exact ⟨cause.raised_unplaced _ _, .recorded s p e⟩
  | ok w =>
    have hroom : s.image.cursor + bs.length ≤ s.image.capacity :=
      Nat.le_trans hst.1 (hs.coherent.within rfl)
    have hemit : emit bs (s.recorded e) = .ok () _ := emit_room hs.mode hroom
    have hemit' : emit bs (p.recorded e) = .ok () _ := emit_stands hp hc hst'
    rw [bind_run hd, bind_run hd', get_bind, get_bind, State.recorded_endian, State.recorded_endian,
      hendian, hkept w _ hd, bind_run hemit, bind_run hemit']
    exact ⟨rfl, SameRecord.recorded s p e⟩

end Field

namespace Fills

variable {decode : Endian → Bytes → α} {encode : Endian → α → Bytes}
  {draw : Option α → Walker K α}

theorem draws (hf : Fills n decode encode draw) (r : Option α) : Draws True (draw r) := by
  cases r with
  | none => exact hf.free
  | some v => exact (hf.forced v).freely

theorem orderly (hf : Fills n decode encode draw) :
    Orderly (Field.ofWidth n decode encode draw).read :=
  (Orderly.get fun _ => (Orderly.found _ _).bind fun _ => .pure _).bind fun _ =>
    (Orderly.draws (hf.draws _)).bind fun _ => .get fun _ => (Orderly.emit _).bind fun _ => .pure _

theorem read_violation {v : Violation} (h : found s.image.cursor n s = violation v s) :
    (Field.ofWidth n decode encode draw).read s = violation v s :=
  bind_error ((get_bind _ s).trans (bind_error h))

theorem spares (hf : Fills n decode encode draw) :
    Sparing (Field.ofWidth n decode encode draw).read := by
  intro s hs
  refine ⟨hf.orderly.generating hs, ?_⟩
  rcases found_looks s.image.cursor n s with ⟨r, hr⟩ | ⟨v, hv⟩
  · apply Field.read_spares hs.mode (Field.ofWidth_find hr) (hf.draws _)
    intro v t hd
    cases r with
    | none =>
      left
      show ∀ k, k < (encode s.endian v).length → _
      rw [hf.drawn s.endian s v t hd]
      exact found_unfixed hs hr
    | some bs =>
      right
      obtain ⟨hlen, hst⟩ := found_stands hr
      have hkept : encode s.endian v = bs := hf.kept s.endian bs s v t hlen hd
      show s.image.Stands (encode s.endian v)
      rw [hkept]
      exact hst
  · rw [after_error (read_violation hv)]
    exact .refl s

/-- Where all is fixed, a read does what it does in a parse. -/
theorem alike (hf : Fills n decode encode draw) (hs : Generating s) (hp : p.mode = .parse)
    (hc : p.image.Coherent .parse) (hn : n ≠ 0)
    (hfixed : ∀ k, k < n → s.image.fixedAt (s.image.cursor + k) = true) (hb : Beside n s p) :
    Accord s p ((Field.ofWidth n decode encode draw).read s)
      ((Field.ofWidth n decode encode draw).read p) := by
  obtain ⟨bs, hfound, hfound'⟩ := found_beside hs hp hc hn hfixed hb
  obtain ⟨hlen, hst⟩ := found_stands hfound
  obtain ⟨-, hst'⟩ := found_stands hfound'
  have hfind' : (Field.ofWidth n decode encode draw).find p = _ := Field.ofWidth_find hfound'
  rw [Option.map_some, hb.endian] at hfind'
  exact Field.read_alike hs hp hc ⟨hb.position, hb.capacity, hb.evil, fun h => h.elim⟩ hb.endian
    (Field.ofWidth_find hfound) hfind' (hf.forced _) hst hst'
    fun w t hd => hf.kept s.endian bs s w t hlen hd

theorem decoding (hf : Fills n decode encode draw) :
    Decoding n (Field.ofWidth n decode encode draw).read where
  refuses s hm hmixed := by
    refine ⟨.straddles n s.image.cursor, read_violation ?_⟩
    rw [found]
    simp only [hm, hmixed]
  alike s p hs hp hc hn hfixed hb := hf.alike hs hp hc hn hfixed hb
  sparing := hf.spares

theorem never (hfree : Draws True (draw none)) (hforced : ∀ v, Draws False (draw (some v)))
    (h : ∀ r s w t, draw r s ≠ .ok w t) : Fills n decode encode draw :=
  ⟨hfree, hforced, fun _ _ s w t _ hd => absurd hd (h _ s w t),
    fun _ s w t hd => absurd hd (h _ s w t)⟩

theorem integer {draw : Option Nat → Walker K Nat} {fits : Bool → Nat → Prop} {code : Nat → Bytes}
    (hfree : Draws True (draw none)) (hforced : ∀ v, Draws False (draw (some v)))
    (hc : Codec False draw fits code)
    (hadm : ∀ s v w t, v < 256 ^ n → draw (some v) s = .ok w t → fits s.evil.allowed v) :
    Fills n Endian.decode (fun e => e.encode n) draw := by
  refine ⟨hfree, hforced, ?_, fun e _ w _ _ => Endian.length_encode e n w⟩
  intro e bs s w t hlen h
  have hv : e.decode bs < 256 ^ n := hlen ▸ e.decode_lt bs
  obtain ⟨rfl, -, -⟩ := hc.forced s _ w t (hadm s _ w t hv h) h
  rw [← hlen]
  exact e.encode_decode bs

theorem string {draw : Option Bytes → Walker K Bytes} {fits : Bool → Bytes → Prop}
    {code : Bytes → Bytes} (hfree : Draws True (draw none))
    (hforced : ∀ v, Draws False (draw (some v))) (hc : Codec False draw fits code)
    (hfits : ∀ b bs, fits b bs → bs.length = n)
    (hadm : ∀ s bs w t, bs.length = n → draw (some bs) s = .ok w t → fits s.evil.allowed bs) :
    Fills n (fun _ bs => bs) (fun _ bs => bs) draw := by
  refine ⟨hfree, hforced, ?_, ?_⟩
  · intro e bs s w t hlen h
    exact (hc.forced s bs w t (hadm s bs w t hlen h) h).1
  · intro e s w t h
    exact hfits _ w (hc.drawn s w t h).1

theorem uint (h1 : 1 ≤ n) (h8 : n ≤ 8) :
    Fills n Endian.decode (fun e => e.encode n) (sampleSmall (K := K) n) :=
  integer (.sampleSmall n fun _ => trivial) (fun _ => .sampleSmall n (Draws.forced _))
    (sampleSmall_codec n h1 h8) fun _ _ _ _ hv _ => hv

theorem uintFull (h8 : n ≤ 8) :
    Fills n Endian.decode (fun e => e.encode n) (decideRaw (K := K) n) :=
  integer (.decideRaw n fun _ => trivial) (fun _ => .decideRaw n (Draws.forced _))
    (decideRaw_codec n h8) fun _ _ _ _ hv _ => hv

theorem bytes (n : Nat) :
    Fills n (fun _ bs => bs) (fun _ bs => bs) (drawSymbols (K := K) .plain n) :=
  string (.drawSymbols .plain n fun _ => trivial) (fun _ => .drawSymbols .plain n (Draws.forced _))
    (drawBytes_codec n) (fun _ _ h => h) fun _ _ _ _ h _ => h

theorem text (n : Nat) :
    Fills n (fun _ bs => bs) (fun _ bs => bs) (drawText (K := K) .plain n) :=
  string (.drawText .plain n fun _ => trivial) (fun _ => .drawText .plain n (Draws.forced _))
    (drawString_codec n) (fun _ _ h => h) fun _ _ _ _ h _ => h

theorem uintKnown (known : List Nat) (h1 : 1 ≤ n) (h8 : n ≤ 8) :
    Fills n Endian.decode (fun e => e.encode n)
      (fun found => chooseKnown (K := K) found known (sampleSmall n)) := by
  have hfree : Draws True (chooseKnown (K := K) none known (sampleSmall n)) :=
    .chooseKnown known (fun _ => trivial) (.sampleSmall n fun _ => trivial)
  have hforced : ∀ v, Draws False (chooseKnown (K := K) (some v) known (sampleSmall n)) := fun v =>
    .chooseKnown known (Draws.forced _) (.sampleSmall n (Draws.forced _))
  by_cases hk : known = []
  · apply never hfree hforced
    intro r s w t h
    rw [hk, chooseKnown_empty] at h
    cases h
  · apply integer hfree hforced
      (chooseKnown_codec known _ _ _ hk (sampleSmall_codec n h1 h8) fun h => h.elim)
    intro s v w t hv h
    exact (chooseKnown_admits h).imp_right fun hs => ⟨hs, hv⟩

theorem bytesKnown (known : List Bytes) (hknown : ∀ bs ∈ known, bs.length = n) :
    Fills n (fun _ bs => bs) (fun _ bs => bs)
      (fun found => chooseKnown (K := K) found known (drawSymbols .plain n)) := by
  have hfree : Draws True (chooseKnown (K := K) none known (drawSymbols .plain n)) :=
    .chooseKnown known (fun _ => trivial) (.drawSymbols .plain n fun _ => trivial)
  have hforced : ∀ bs, Draws False (chooseKnown (K := K) (some bs) known (drawSymbols .plain n)) :=
    fun bs => .chooseKnown known (Draws.forced _) (.drawSymbols .plain n (Draws.forced _))
  by_cases hk : known = []
  · apply never hfree hforced
    intro r s w t h
    rw [hk, chooseKnown_empty] at h
    cases h
  · apply string hfree hforced
      (chooseKnown_codec known _ _ _ hk (drawBytes_codec n) fun h => h.elim)
    · intro b bs hbs
      rcases hbs with hbs | hbs
      · exact hknown bs hbs
      · exact hbs.2
    · intro s bs w t hl h
      exact (chooseKnown_admits h).imp_right fun hs => ⟨hs, hl⟩

theorem reserved (n : Nat) :
    Fills (K := K) n (fun _ bs => some bs) (fun _ r => r.getD (List.replicate n 0))
      (fun r => pure r.join) := by
  refine ⟨.pure _, fun _ => .pure _, ?_, ?_⟩
  · intro e bs s w t _ h
    cases h
    rfl
  · intro e s w t h
    cases h
    exact List.length_replicate

end Fills

namespace Decoding

theorem violation (v : Violation) : Decoding n (violation v : Walker K α) where
  refuses _ _ _ := ⟨v, rfl⟩
  alike _ _ _ _ _ _ _ _ := ⟨rfl, [], (List.append_nil _).symm, (List.append_nil _).symm⟩
  sparing := .violation v

theorem checked {x : Walker K α} {f : Unit → Walker K α} (hx : x = (checkWidth n >>= f))
    (h : 1 ≤ n → n ≤ 8 → Decoding n x) : Decoding n x := by
  by_cases hw : 1 ≤ n ∧ n ≤ 8
  · exact h hw.1 hw.2
  · have hbad : x = Walker.violation (.badWidth n) := by
      rw [hx, checkWidth, if_neg hw]
      exact funext fun s => bind_error rfl
    rw [hbad]
    exact violation _

/-- The answer may also tell where the call was made and in which byte order. -/
theorem told {x : Walker K α} {y : Walker K β} (hx : Decoding n x) (f : Nat → Endian → α → β)
    (hy : ∀ s, y s = (x >>= fun a => pure (f s.image.cursor s.endian a)) s) : Decoding n y where
  refuses s hm hmixed := by
    obtain ⟨v, hv⟩ := hx.refuses s hm hmixed
    exact ⟨v, (hy s).trans (bind_error hv)⟩
  alike s p hs hp hc hn hfixed hb := by
    have h := hx.alike s p hs hp hc hn hfixed hb
    rw [hy s, hy p, hb.cursor, hb.endian]
    cases hr : x s with
    | ok a t =>
      cases hr' : x p with
      | ok b q =>
        rw [hr, hr'] at h
        rw [bind_run hr, bind_run hr']
        exact ⟨congrArg _ h.1, h.2⟩
      | error e q =>
        rw [hr, hr'] at h
        exact h.elim
    | error e t =>
      cases hr' : x p with
      | ok b q =>
        rw [hr, hr'] at h
        exact h.elim
      | error d q =>
        rw [hr, hr'] at h
        rw [bind_error hr, bind_error hr']
        exact h
  sparing s hs := by
    have hafter : y.after s = x.after s := by
      rw [after, hy s, ← after, after_bind_pure]
    rw [hafter]
    exact hx.sparing s hs

theorem readUInt (width : Nat) : Decoding width (readUInt (K := K) width) := by
  refine checked (x := Walker.readUInt width) rfl fun h1 h8 => ?_
  rw [readUInt_eq width h1 h8]
  exact (Fills.uint h1 h8).decoding

theorem readUIntFull (width : Nat) : Decoding width (readUIntFull (K := K) width) := by
  refine checked (x := Walker.readUIntFull width) rfl fun h1 h8 => ?_
  rw [readUIntFull_eq width h1 h8]
  exact (Fills.uintFull h8).decoding

theorem readUIntKnown (width : Nat) (known : List Nat) :
    Decoding width (readUIntKnown (K := K) width known) := by
  refine checked (x := Walker.readUIntKnown width known) rfl fun h1 h8 => ?_
  rw [readUIntKnown_eq width known h1 h8]
  exact (Fills.uintKnown known h1 h8).decoding

theorem readBytes (length : Nat) : Decoding length (readBytes (K := K) length) := by
  rw [readBytes_eq]
  exact (Fills.bytes length).decoding

theorem readString (length : Nat) : Decoding length (readString (K := K) length) := by
  rw [readString_eq]
  exact (Fills.text length).decoding

theorem readBytesKnown (length : Nat) (known : List Bytes) :
    Decoding length (readBytesKnown (K := K) length known) := by
  cases hbad : known.find? (·.length != length) with
  | some bad =>
    have hrun : Walker.readBytesKnown (K := K) length known =
        Walker.violation (.knownLength bad length) := by
      rw [Walker.readBytesKnown, hbad]
      exact funext fun s => bind_error rfl
    rw [hrun]
    exact violation _
  | none =>
    have hknown : ∀ bs ∈ known, bs.length = length := by
      intro bs hbs
      simpa using List.find?_eq_none.1 hbad bs hbs
    rw [readBytesKnown_eq length known hknown]
    exact (Fills.bytesKnown known hknown).decoding

theorem reserve (width : Nat) : Decoding width (reserve (K := K) width) := by
  refine checked (x := Walker.reserve width) rfl fun h1 h8 => ?_
  apply (Fills.reserved (K := K) width).decoding.told fun cursor order r =>
    ⟨cursor, width, r.map order.decode⟩
  intro s
  have hrun : Walker.reserve width s = (found s.image.cursor width >>= fun there =>
      get >>= fun u => emit (there.getD (List.replicate width 0)) >>= fun _ =>
        pure ⟨s.image.cursor, width, there.map u.endian.decode⟩ : Walker K Reserved) s := by
    rw [Walker.reserve, checkWidth_run h1 h8]
    rfl
  rw [hrun]
  rcases found_looks s.image.cursor width s with ⟨r, hr⟩ | ⟨v, hv⟩
  · have hjoin : (r.map some).join = r := by cases r <;> rfl
    rw [bind_run hr, bind_like (Field.read_run (Field.ofWidth_find hr))]
    simp only [Field.ofWidth, hjoin, pure_bind, bind_assoc, get_bind]
  · rw [bind_error hv]
    exact (bind_error (Fills.read_violation hv)).symm

end Decoding

namespace Sparing

theorem fillGap (n : Nat) : Sparing (fillGap n : Walker K Unit) := by
  induction n with
  | zero => exact pure _
  | succ n ih => exact (Decoding.readUIntFull 1).sparing.bind fun _ => ih

theorem seek (position : Nat) : Sparing (seek position : Walker K Unit) := by
  have hrest : ∀ s : State K, Sparing (K := K) (do
      if s.image.size < position then
        Walker.moveTo s.image.size
        Walker.fillGap (position - s.image.size)
      Walker.moveTo position) := fun s =>
    ite ((moveTo _).bind fun _ => (fillGap _).bind fun _ => moveTo _) (moveTo _)
  apply get
  intro s
  apply ite ?_ (hrest s)
  split
  · exact (violation _).bind fun _ => hrest s
  · exact (capacity _ _).bind fun _ => hrest s

theorem skip (m : Nat) : Sparing (skip m : Walker K Unit) :=
  get fun s => seek (s.image.cursor + m)

end Sparing

namespace Request

def reach? : {α : Type} → Request α → Option Nat
  | _, .uint width => some width
  | _, .uintFull width => some width
  | _, .uintKnown width _ => some width
  | _, .bytes length => some length
  | _, .bytesKnown length _ => some length
  | _, .string length => some length
  | _, .reserve width => some width
  | _, _ => none

def roams : {α : Type} → Request α → Bool
  | _, .lookUInt _ _ _ => true
  | _, .lookBytes _ _ _ => true
  | _, .seek _ => true
  | _, .skip _ => true
  | _, _ => false

theorem decoding {r : Request α} (h : r.reach? = some n) : Decoding n (r.answer : Walker K α) := by
  cases r with
  | uint width =>
    cases h
    exact .readUInt n
  | uintFull width =>
    cases h
    exact .readUIntFull n
  | uintKnown width known =>
    cases h
    exact .readUIntKnown n known
  | bytes length =>
    cases h
    exact .readBytes n
  | bytesKnown length known =>
    cases h
    exact .readBytesKnown n known
  | string length =>
    cases h
    exact .readString n
  | reserve width =>
    cases h
    exact .reserve n
  | _ => cases h

theorem sparing {r : Request α} (h : r.reach?.isSome ∨ r.roams = true) :
    Sparing (r.answer : Walker K α) := by
  rcases h with h | h
  · obtain ⟨n, hn⟩ := Option.isSome_iff_exists.1 h
    exact (decoding hn).sparing
  · cases r with
    | lookUInt offset width known =>
      exact .ahead offset (Decoding.readUIntKnown width known).sparing
    | lookBytes offset length known =>
      exact .ahead offset (Decoding.readBytesKnown length known).sparing
    | seek position => exact .seek position
    | skip m => exact .skip m
    | _ => cases h

end Request

variable [DecidableEq K]

def Reached (s : State K) : Prop :=
  ∃ (origin : Origin) (start seeded : State K) (watches : List (Watch K)) (acts : List (Act K)),
    Grammar.seed origin start = .ok () seeded ∧ s = visit acts { seeded with watches := watches }

theorem Reached.coherent (h : Reached s) : s.image.Coherent s.mode := by
  obtain ⟨origin, start, seeded, watches, acts, hseed, rfl⟩ := h
  exact (visit_kept acts _).coherent ((Grammar.seed_seeded hseed).watching watches).coherent

/-- In a generation, a request that reaches into fixed bytes in part is refused and does nothing;
one whose bytes are all fixed does what it does in a parse of these bytes; and neither these
requests nor the lookaheads and the moves of the cursor ever change a fixed byte. -/
theorem answer_decodes_fixed (hs : Reached s) (hm : s.mode = .generate) (r : Request α) :
    (∀ n, r.reach? = some n → n ≠ 0 →
      ((∃ i, i < n ∧ s.image.fixedAt (s.image.cursor + i) = true) →
        (∃ j, j < n ∧ s.image.fixedAt (s.image.cursor + j) = false) →
          ∃ offset path v, r.answer s = .error (.structural offset path v) s) ∧
      ((∀ k, k < n → s.image.fixedAt (s.image.cursor + k) = true) →
        ∀ p, Reached p → p.mode = .parse → Beside n s p →
          Accord s p (r.answer s) (r.answer p))) ∧
    (r.reach?.isSome ∨ r.roams = true → ∀ i, s.image.fixedAt i = true →
      (r.answer.after s).image.fixedAt i = true ∧
        (r.answer.after s).image.byteAt i = s.image.byteAt i) := by
  have hgen : Generating s := ⟨hm, hm ▸ hs.coherent⟩
  refine ⟨?_, fun hr => ((Request.sparing hr) s hgen).2⟩
  intro n hr hn
  have hdecoding := Request.decoding (K := K) hr
  constructor
  · rintro ⟨i, hi, hfixed⟩ ⟨j, hj, hfree⟩
    obtain ⟨v, hv⟩ := hdecoding.refuses s hm (region_mixed _ _ _ i j hi hj hfixed hfree)
    exact ⟨_, _, v, hv⟩
  · intro hfixed p hp hpm hb
    exact hdecoding.alike s p hgen hpm (hpm ▸ hp.coherent) hn hfixed hb

/-- A lookahead fixes two bytes; a parse of them has tossed one coin. -/
theorem answer_decodes_fixed_looked :
    ∃ s p : State Unit, Reached s ∧ Reached p ∧ Beside 2 s p ∧
      Accord s p (Request.answer (.uint 2) s) (Request.answer (.uint 2) p) ∧
      (∃ offset path v, Request.answer (.uint 3) s = .error (.structural offset path v) s) ∧
      (Walker.after (Request.answer (.seek 3)) s).image.byteAt 1 = 9 := by
  have hs : Reached (visit [.ask (.lookBytes 0 2 [[7, 9]])]
      (State.generating {} [1, 5] : State Unit)) :=
    ⟨.decisions [1, 5], State.empty {}, State.generating {} [1, 5], [], _, rfl, rfl⟩
  have hp : Reached (visit [.ask (.endOfFile 128)] (State.parsing {} [7, 9] : State Unit)) :=
    ⟨.input [7, 9], State.empty {}, State.parsing {} [7, 9], [], _, rfl, rfl⟩
  have hb : Beside 2 (visit [.ask (.lookBytes 0 2 [[7, 9]])]
      (State.generating {} [1, 5] : State Unit))
      (visit [.ask (.endOfFile 128)] (State.parsing {} [7, 9])) :=
    ⟨rfl, rfl, rfl, rfl, rfl, by decide, by decide⟩
  refine ⟨_, _, hs, hp, hb, ?_, ?_, ?_⟩
  · exact ((answer_decodes_fixed hs rfl (.uint 2)).1 2 rfl (by decide)).2 (by decide) _ hp rfl hb
  · exact ((answer_decodes_fixed hs rfl (.uint 3)).1 3 rfl (by decide)).1 ⟨0, by decide⟩
      ⟨2, by decide⟩
  · exact ((answer_decodes_fixed hs rfl (.seek 3)).2 (Or.inr rfl) 1 (by decide)).2

end DecisionWalk
