import DecisionWalk.Proofs.Abreast

/-!
# Requests of a sequential walk

One law for each request that neither moves the cursor by itself nor looks ahead
of it: what it does for a walk, it does for those that keep abreast of it.
-/

set_option autoImplicit false

namespace DecisionWalk

open Image Walker Abreast

variable {K α : Type} {m : Mode} {input : Array UInt8}

namespace Field

section Width

variable {n : Nat} {decode : Endian → Bytes → α} {encode : Endian → α → Bytes}
  {draw : Option α → Walker K α} {dom : α → Prop} {fits : Bool → α → Prop} {code : α → Bytes}

theorem ofWidth_sequential (hc : Codec False draw fits code)
    (hlen : ∀ e v, dom v → (encode e v).length = n)
    (hdec : ∀ e v, dom v → decode e (encode e v) = v)
    (henc : ∀ e bs, bs.length = n → dom (decode e bs) ∧ encode e (decode e bs) = bs)
    (hadm : ∀ s v w t, dom v → draw (some v) s = .ok w t → fits s.evil.allowed v) :
    (ofWidth n decode encode draw).Sequential dom fits code := by
  refine ⟨hc, ?_, ?_, ?_, fun s v w t hv _ h => hadm s v w t hv h⟩
  · intro s hs hm
    have hsound : Sound .generate s := hm ▸ hs.sound
    by_cases hn : n = 0
    · -- An empty range counts as fixed, so a field without bytes is always found.
      subst hn
      have hsize := hs.size
      have hfound := found_fixed hsound s.image.cursor 0 (by omega)
        (fun _ hk => absurd hk (Nat.not_lt_zero _))
      have hnil : s.image.window s.image.cursor 0 = [] := by simp [window]
      obtain ⟨hv, hback⟩ := henc s.endian [] rfl
      rw [hnil] at hfound
      refine Or.inr ⟨decode s.endian [], ofWidth_find hfound, hback, ?_⟩
      intro w
      constructor
      · intro hw
        rw [← hdec s.endian w hw, List.length_eq_zero_iff.1 (hlen s.endian w hw)]
      · rintro rfl
        exact hv
    · exact Or.inl (ofWidth_find (found_fresh hsound _ n hn fun k _ => hs.fresh k))
  · intro s v hs hv hst
    have hl : (encode s.endian v).length = n := hlen s.endian v hv
    have hst' : s.image.Stands (encode s.endian v) := hst
    have hw := stands_window hst'
    rw [hl] at hw
    rw [ofWidth_there hs (Or.inl rfl) (by rw [← hl]; exact hst'.1), hw, hdec s.endian v hv]
  · intro s r t hs h
    have hl := ofWidth_within hs (Or.inl rfl) h
    rw [ofWidth_there hs (Or.inl rfl) hl] at h
    cases h
    obtain ⟨hv, hback⟩ := henc s.endian _ (window_length s.image _ n hl)
    refine ⟨rfl, _, rfl, hv, ?_⟩
    show s.image.Stands (encode s.endian (decode s.endian _))
    rw [hback]
    exact window_stands s.image n hl

end Width

theorem integer_sequential {width : Nat} {draw : Option Nat → Walker K Nat}
    {fits : Bool → Nat → Prop} {code : Nat → Bytes} (hc : Codec False draw fits code)
    (hadm : ∀ s v w t, v < 256 ^ width → draw (some v) s = .ok w t → fits s.evil.allowed v) :
    (integer width draw).Sequential (· < 256 ^ width) fits code := by
  apply ofWidth_sequential hc
  · intro e v _
    exact Endian.length_encode e width v
  · intro e v hv
    rw [Endian.decode_encode, Nat.mod_eq_of_lt hv]
  · intro e bs hl
    exact ⟨hl ▸ Endian.decode_lt e bs, by rw [← hl, Endian.encode_decode]⟩
  · exact hadm

theorem string_sequential {n : Nat} {draw : Option Bytes → Walker K Bytes}
    {fits : Bool → Bytes → Prop} {code : Bytes → Bytes} (hc : Codec False draw fits code)
    (hadm : ∀ s bs w t, bs.length = n → draw (some bs) s = .ok w t → fits s.evil.allowed bs) :
    (string n draw).Sequential (·.length = n) fits code := by
  apply ofWidth_sequential hc
  · intro e bs hl
    exact hl
  · intro e bs _
    rfl
  · intro e bs hl
    exact ⟨hl, rfl⟩
  · exact hadm

/-- A terminated string takes at least one byte of the file. Its length is recorded as a number of
at most eight bytes, so only such strings are told again. -/
theorem terminated_sequential (most : Nat) :
    (terminated (K := K) most).Sequential
      (fun bs => bs.length ≤ most ∧ ∀ b ∈ bs, Alphabet.nonNul.contains b = true)
      (fun _ bs => (bs.length ≤ most ∧ ∀ b ∈ bs, Alphabet.nonNul.contains b = true) ∧
        bs.length < 256 ^ 8)
      (terminatedCode most) := by
  refine ⟨terminated_codec most, ?_, ?_, ?_, ?_⟩
  · intro s hs hm
    left
    have hfresh := region_fresh s.image s.image.cursor 1 (by decide) fun k _ => hs.fresh k
    show foundCString most s = _
    rw [foundCString]
    simp only [hm, hfresh, and_self, if_true]
  · intro s bs hs hbs hst
    exact foundCString_parse most hs.mode hs.limit_parse bs hbs.1
      (fun c hc => (Alphabet.nonNul_contains c).1 (hbs.2 c hc)) hst
  · intro s r t hs h
    obtain ⟨rfl, bs, rfl, hl, hz, hst⟩ := foundCString_ok most hs r h
    exact ⟨rfl, bs, rfl, ⟨hl, fun b hb => (Alphabet.nonNul_contains b).2 (hz b hb)⟩, hst⟩
  · intro s bs w t hbs hlen _
    have hl : (bs ++ [0]).length ≤ 2 ^ 64 := hlen
    rw [List.length_append, List.length_singleton] at hl
    exact ⟨hbs, by omega⟩

end Field

namespace Walker

theorem checkWidth_fails {width : Nat} (hw : ¬ (1 ≤ width ∧ width ≤ 8))
    (f : Unit → Walker K α) (s t : State K) (a : α) : (checkWidth width >>= f) s ≠ .ok a t := by
  intro h
  obtain ⟨_, u, h1, -⟩ := bind_ok.1 h
  rw [checkWidth, if_neg hw] at h1
  exact violation_not_ok _ _ _ _ h1

theorem chooseKnown_nil [DecidableEq α] (found : Option α) (evilDraw : Option α → Walker K α)
    (s t : State K) (v : α) : chooseKnown found [] evilDraw s ≠ .ok v t := by
  intro h
  obtain ⟨_, u, h1, -⟩ := bind_ok.1 h
  exact violation_not_ok _ _ _ _ h1

theorem readBytesKnown_fails {n : Nat} {known : List Bytes} (h : ¬ ∀ bs ∈ known, bs.length = n)
    (s t : State K) (v : Bytes) : readBytesKnown n known s ≠ .ok v t := by
  intro hread
  obtain ⟨bad, hbad⟩ : ∃ bad, known.find? (·.length != n) = some bad := by
    apply Option.isSome_iff_exists.1
    simpa using h
  rw [readBytesKnown, hbad] at hread
  obtain ⟨_, u, h1, -⟩ := bind_ok.1 hread
  exact violation_not_ok _ _ _ _ h1

structure Records (x : Walker K α) (v : α) (c : Bytes) : Prop where
  ok : ∀ s w t, x s = .ok w t → w = v ∧ t = s.recorded c
  run : ∀ s, s.stream.position + c.length ≤ s.stream.capacity → x s = .ok v (s.recorded c)

theorem Records.forced {T : Prop} {draw : Option α → Walker K α} {fits : Bool → α → Prop}
    {code : α → Bytes} {v : α} (h : Codec T draw fits code) (hv : ∀ b, fits b v) :
    Records (draw (some v)) v (code v) := by
  refine ⟨?_, fun s hr => h.force s v (hv _) hr⟩
  intro s w t hrun
  obtain ⟨hw, ht, -⟩ := h.forced s v w t (hv _) hrun
  exact ⟨hw, ht⟩

theorem Records.bind {β : Type} {x : Walker K α} {f : α → Walker K β} {v : α} {w : β} {c d : Bytes}
    (hx : Records x v c) (hf : Records (f v) w d) : Records (x >>= f) w (c ++ d) := by
  refine ⟨?_, ?_⟩
  · intro s b u h
    obtain ⟨a, t, h1, h2⟩ := bind_ok.1 h
    obtain ⟨rfl, rfl⟩ := hx.ok s a t h1
    obtain ⟨rfl, rfl⟩ := hf.ok _ b u h2
    exact ⟨rfl, State.recorded_recorded _ _ _⟩
  · intro s hr
    rw [List.length_append] at hr
    have h2 := hf.run (s.recorded c)
      (by rw [State.recorded_stream, Stream.recorded_position, Stream.recorded_capacity]; omega)
    rw [bind_run (hx.run s (by omega)), h2, State.recorded_recorded]

theorem Records.give {x : Walker K α} {v : α} {c : Bytes} (h : Records x v c) {β : Type}
    (f : α → β) : Records (x >>= fun a => pure (f a)) (f v) c := by
  have hpure : Records (pure (f v) : Walker K β) (f v) [] :=
    ⟨fun s w t hrun => by cases hrun; exact ⟨rfl, (State.recorded_nil _).symm⟩,
      fun s _ => by rw [State.recorded_nil]; rfl⟩
  have hbind := h.bind (f := fun a => (pure (f a) : Walker K β)) hpure
  rw [List.append_nil] at hbind
  exact hbind

open Sampler in
/-- A number too large for its field is recorded as another, but always as the same. -/
theorem drawRaw_records (width : Nat) (tier : Tier) (raw : Nat)
    (h : tier = .tiny → raw < tinyValues) :
    ∃ v c, Records (drawRaw (K := K) width tier (some raw)) v c := by
  have hreduced : ∀ w, ∃ v c, Records (drawReduced (K := K) w (some raw)) v c := by
    intro w
    have heq : drawReduced (K := K) w (some raw) = drawReduced w (some (raw % valuesOf w)) := by
      simp only [drawReduced, decideRaw, Nat.mod_mod]
    rw [heq]
    exact ⟨_, _, .forced (T := True) (drawReduced_codec w) fun _ => Nat.mod_lt _ (valuesOf_pos w)⟩
  cases tier with
  | tiny =>
    exact ⟨_, _, .forced (T := True) (decideBelow_codec tinyValues (by decide)) fun _ => h rfl⟩
  | byte => exact hreduced 1
  | wide => exact hreduced (min width 2)
  | full => exact hreduced width

open Sampler in
theorem sampleSmall_records (width n : Nat) :
    ∃ v c, Records (sampleSmall (K := K) width (some n)) v c := by
  have hselector : Records (decideBelow (K := K) 256 (some (selectorFor n))) _ _ :=
    .forced (T := True) (decideBelow_codec 256 (by decide)) fun _ => selectorFor_lt n
  have htiny : (encode n).1 = .tiny → (encode n).2 < tinyValues := by
    rw [encode_eq]
    split
    · intro _
      show n - 1 < 16
      omega
    · intro h
      split at h
      · cases h
      · split at h <;> cases h
  obtain ⟨raw, c, hraw⟩ := drawRaw_records (K := K) width (encode n).1 (encode n).2 htiny
  rw [← encode_tier] at hraw
  rw [sampleSmall_eq]
  exact ⟨_, _, hselector.bind (hraw.give ((Tier.ofSelector (selectorFor n)).decode width))⟩

def endAnswer (threshold : Nat) (ends : Bool) : Bool :=
  decide ((if ends then 0 else 255) < threshold)

theorem endCoin_forced {threshold : Nat} {ends b : Bool} {s t : State K}
    (h : endCoin threshold (some ends) s = .ok b t) :
    b = endAnswer threshold ends ∧ t = s.recorded (endCode ends) := by
  obtain ⟨coin, u, h1, h2⟩ := bind_ok.1 h
  obtain ⟨rfl, rfl, -⟩ := (decideBelow_codec (T := True) 256 (by decide)).forced _ _ _ _
    (by cases ends <;> decide) h1
  cases h2
  exact ⟨rfl, rfl⟩

theorem endCoin_replays (threshold : Nat) {ends : Bool} {s : State K} {rest : Bytes}
    (h : s.stream.ahead = endCode ends ++ rest) :
    endCoin threshold none s = .ok (endAnswer threshold ends) (s.recorded (endCode ends)) := by
  have hcoin := (decideBelow_codec (K := K) (T := True) 256 (by decide)).replays s
    (if ends then 0 else 255) rest (by cases ends <;> decide) h
  rw [endCoin, Option.map_none, bind_run hcoin]
  rfl

end Walker

namespace Abreast

theorem uint_leads (width : Nat) (l : State K) :
    (bond m input).Leads (Request.uint width).answer l := by
  have hq := Quiet.answer (K := K) (.uint width)
  by_cases hw : 1 ≤ width ∧ width ≤ 8
  · exact (Field.integer_sequential (sampleSmall_codec width hw.1 hw.2) fun _ _ _ _ h _ => h).leads
      (fun _ _ _ h => h) (readUInt_eq width hw.1 hw.2) hq l
  · exact Bond.Leads.failing hq fun v t => checkWidth_fails hw _ l t v

theorem uintFull_leads (width : Nat) (l : State K) :
    (bond m input).Leads (Request.uintFull width).answer l := by
  have hq := Quiet.answer (K := K) (.uintFull width)
  by_cases hw : 1 ≤ width ∧ width ≤ 8
  · exact (Field.integer_sequential (decideRaw_codec width hw.2) fun _ _ _ _ h _ => h).leads
      (fun _ _ _ h => h) (readUIntFull_eq width hw.1 hw.2) hq l
  · exact Bond.Leads.failing hq fun v t => checkWidth_fails hw _ l t v

/-- A field out of known values. A generation may only write one that can be told from its
bytes. -/
theorem known_leads [DecidableEq α] {f : Field K α} {known : List α}
    {evilDraw : Option α → Walker K α} {dom : α → Prop} {evilCode : α → Bytes} {x : Walker K α}
    (hdraw : f.draw = fun found => chooseKnown found known evilDraw)
    (hevil : Codec False evilDraw (fun _ => dom) evilCode)
    (hf : ∀ {fits : Bool → α → Prop} {code : α → Bytes}, Codec False f.draw fits code →
      (∀ s v w t, dom v → f.draw (some v) s = .ok w t → fits s.evil.allowed v) →
      f.Sequential dom fits code)
    (hknown : m = .generate → ∀ v ∈ known, dom v) (hx : x = f.read) (hq : Quiet x) (l : State K) :
    (bond m input).Leads x l := by
  by_cases hk : known = []
  · -- The leader fails as well: nothing can be chosen.
    subst hk hx
    apply Bond.Leads.failing hq
    intro v t h
    obtain ⟨r, u, -, h2⟩ := bind_ok.1 h
    obtain ⟨w, u', h3, -⟩ := bind_ok.1 h2
    rw [hdraw] at h3
    exact chooseKnown_nil r evilDraw u u' w h3
  · have hcodec := chooseKnown_codec known evilDraw dom evilCode hk hevil (fun h => h.elim)
    rw [← hdraw] at hcodec
    refine (hf hcodec ?_).leads ?_ hx hq l
    · intro s v w t hv h
      rw [hdraw] at h
      exact (chooseKnown_admits h).imp_right fun hs => ⟨hs, hv⟩
    · intro hm b v hv
      rcases hv with hv | hv
      · exact hknown hm v hv
      · exact hv.2

theorem uintKnown_leads (width : Nat) (known : List Nat)
    (hknown : m = .generate → ∀ v ∈ known, v < 256 ^ width) (l : State K) :
    (bond m input).Leads (Request.uintKnown width known).answer l := by
  have hq := Quiet.answer (K := K) (.uintKnown width known)
  by_cases hw : 1 ≤ width ∧ width ≤ 8
  · exact known_leads rfl (sampleSmall_codec width hw.1 hw.2) Field.integer_sequential hknown
      (readUIntKnown_eq width known hw.1 hw.2) hq l
  · exact Bond.Leads.failing hq fun v t => checkWidth_fails hw _ l t v

theorem bytes_leads (length : Nat) (l : State K) :
    (bond m input).Leads (Request.bytes length).answer l :=
  (Field.string_sequential (drawBytes_codec length) fun _ _ _ _ h _ => h).leads
    (fun _ _ _ h => h) (readBytes_eq length) (Quiet.answer (.bytes length)) l

theorem string_leads (length : Nat) (l : State K) :
    (bond m input).Leads (Request.string length).answer l :=
  (Field.string_sequential (drawString_codec length) fun _ _ _ _ h _ => h).leads
    (fun _ _ _ h => h) (readString_eq length) (Quiet.answer (.string length)) l

theorem bytesKnown_leads (length : Nat) (known : List Bytes) (l : State K) :
    (bond m input).Leads (Request.bytesKnown length known).answer l := by
  have hq := Quiet.answer (K := K) (.bytesKnown length known)
  by_cases hlen : ∀ bs ∈ known, bs.length = length
  · exact known_leads rfl (drawBytes_codec length) Field.string_sequential (fun _ => hlen)
      (readBytesKnown_eq length known hlen) hq l
  · exact Bond.Leads.failing hq fun v t => readBytesKnown_fails hlen l t v

theorem cstring_leads (most : Nat) (l : State K) :
    (bond m input).Leads (Request.cstring most).answer l :=
  (Field.terminated_sequential most).leads (fun _ _ _ h => h.1) (readCString_eq most)
    (Quiet.answer (.cstring most)) l

/-- A count that is derived takes the same decisions in every walk. One that is not can only be
drawn, so it cannot be parsed. -/
theorem count_leads (most : Nat) (derived : Option Nat) (hd : m = .generate → derived ≠ none)
    (l : State K) : (bond m input).Leads (Request.count most derived).answer l := by
  apply Bond.Leads.quietly (Quiet.answer (.count most derived))
  intro v l' hl h
  obtain ⟨hparse, hle, hdraw⟩ := decideCount_ok h
  have hsome : derived ≠ none := by
    cases m with
    | parse => exact hparse hl.2.1
    | generate => exact hd rfl
  obtain ⟨n, rfl⟩ := Option.ne_none_iff_exists'.1 hsome
  obtain ⟨w, c, hsample⟩ := sampleSmall_records (K := K) 8 n
  have hcount : Records (drawCount (K := K) most (some n)) (w % (most + 1)) c := hsample.give _
  obtain ⟨rfl, rfl⟩ := hcount.ok l v l' hdraw
  refine ⟨⟨hl.1.recorded c, hl.2⟩, fun h => h, c, ⟨c, rfl, Iff.rfl, fun _ => rfl⟩, ?_⟩
  intro f hp hr _
  refine ⟨f.recorded c, ?_, hp.recorded Iff.rfl (fun _ => rfl), ⟨rfl, rfl⟩⟩
  exact (decideCount_run (fun _ => Option.some_ne_none n) hle).trans (hcount.run f hr.room)

/-- A parse knows whether its input ends, and tells those that generate behind it. -/
theorem endOfFile_leads (threshold : Nat) (l : State K) :
    (bond .parse input).Leads (Request.endOfFile threshold).answer l := by
  apply Bond.Leads.quietly (Quiet.answer (.endOfFile threshold))
  intro b l' hl h
  obtain ⟨hlevel, hmode, hinput⟩ := hl
  have hs : Sound .parse l := hmode ▸ hlevel.sound
  have hrun : endOfFile threshold l = .ok b l' := h
  rw [endOfFile_run threshold (knownEnd_edge hs rfl hlevel.size), if_pos rfl] at hrun
  obtain ⟨_, u, h1, h2⟩ := bind_ok.1 hrun
  obtain ⟨rfl, rfl⟩ := endCoin_forced h1
  cases h2
  generalize decide (l.image.limit ≤ l.image.cursor) = ends
  refine ⟨⟨(hlevel.recorded _).tracking _, hmode, hinput⟩, fun h => h, endCode ends,
    ⟨endCode ends, rfl, Iff.rfl, fun _ => rfl⟩, ?_⟩
  intro f hp hr _
  -- A parse does not follow a parse, so the follower has no input to look at.
  have hgen : f.mode = .generate := by
    cases hf : f.mode with
    | generate => rfl
    | parse => exact absurd (hp.input hf).1 (fun hm => nomatch hm)
  have hfs : Sound .generate f := hgen ▸ hp.level.sound
  obtain ⟨rest, hahead⟩ := hr.ahead hgen
  refine ⟨(f.recorded (endCode ends)).tracking (f.tracker.lookahead
    ⟨f.stream.position, (f.stream.recorded (endCode ends)).position⟩), ?_, ?_, ⟨rfl, rfl⟩⟩
  · show endOfFile threshold f = _
    rw [endOfFile_run threshold (knownEnd_edge hfs rfl hp.level.size),
      if_neg (fun hm => nomatch hm), bind_run (endCoin_replays threshold hahead.symm)]
    rfl
  · obtain ⟨hpast, htracker⟩ := hp.ledger
    apply (hp.recorded Iff.rfl (fun _ => rfl)).tracking
    have hposition : f.stream.position = l.stream.position := congrArg Array.size hpast
    refine ⟨by simp [State.tracking, hpast], ?_⟩
    show f.tracker.lookahead ⟨f.stream.position, (f.stream.recorded (endCode ends)).position⟩ =
      l.tracker.lookahead ⟨l.stream.position, (l.stream.recorded (endCode ends)).position⟩
    rw [htracker, Stream.recorded_position, Stream.recorded_position, hposition]

theorem fixedSlice_leads {start stop : Nat} {l : State K} (h : stop ≤ l.image.cursor) :
    (bond m input).Leads (fixedSlice start stop) l := by
  apply Bond.Leads.still (Quiet.fixedSlice start stop)
  intro bs l' hl hrun
  obtain ⟨-, -, -, rfl, -⟩ := fixedSlice_ok hrun
  refine ⟨hl, fun h => h, rfl, ?_⟩
  intro f hp
  have hstop : stop ≤ f.image.bytes.size := by
    have h1 := hp.agree.cursor
    have h2 := hp.level.size
    have h3 := hp.level.sound.size_le
    omega
  exact ⟨f, hp.agree.fixedSlice (Nat.zero_le _) hstop hrun, hp, rfl, rfl⟩

theorem note_leads (label : String) (value : Value) (l : State K) :
    (bond m input).Leads (Request.note label value).answer l := by
  apply Bond.Leads.still (Quiet.answer (.note label value))
  intro _ l' hl h
  cases h
  refine ⟨⟨hl.1.like rfl rfl rfl, hl.2⟩, fun h => h, rfl, ?_⟩
  intro f hp
  have hobserved : (⟨label, value, f.image.cursor, f.image.size, f.evil.allowed⟩ : Observation) =
      ⟨label, value, l.image.cursor, l.image.size, l.evil.allowed⟩ := by
    rw [hp.agree.cursor, hp.agree.size, hp.evil]
  refine ⟨_, rfl, ?_, rfl, rfl⟩
  simp only [← hp.log, hobserved]
  exact hp.noted _

theorem openScope_leads [DecidableEq K] (name : String) (kind : K) (l : State K) :
    (bond m input).Leads (openScope name kind) l := by
  apply Bond.Leads.still (Quiet.openScope name kind)
  intro depth l' hl h
  obtain ⟨hdepth, rfl⟩ := openScope_ok hl.1.sound.watches h
  rw [openScope_run name kind hl.1.sound.watches hdepth] at h
  cases h
  refine ⟨⟨hl.1.tracking _, hl.2⟩, fun h => h, rfl, ?_⟩
  intro f hp
  have hfits : f.tracker.depth < f.tracker.maxDepth := by
    rw [← hp.ledger.depth, ← hp.ledger.maxDepth]
    exact hdepth
  refine ⟨_, ?_, hp.tracking (hp.ledger.opened name kind l.image.cursor), rfl, rfl⟩
  rw [openScope_run name kind hp.level.sound.watches hfits, ← hp.ledger.depth, hp.agree.cursor]

theorem closeScope_leads (depth : Nat) (l : State K) :
    (bond m input).Leads (closeScope depth) l := by
  apply Bond.Leads.still (Quiet.closeScope depth)
  intro _ l' hl h
  rw [closeScope_run depth hl.1.sound.watches] at h
  cases h
  refine ⟨⟨hl.1.tracking _, hl.2⟩, fun h => h, rfl, ?_⟩
  intro f hp
  refine ⟨_, ?_, hp.tracking (hp.ledger.closed l.image.cursor), rfl, rfl⟩
  rw [closeScope_run depth hp.level.sound.watches, hp.agree.cursor]

end Abreast

/-- The requests of a sequential walk in the given mode. A generation may leave neither the end of
the file nor a count to the stream, since a parse could not tell them from the file. -/
def Request.Serial (m : Mode) : {β : Type} → Request β → Prop
  | _, .uint _ | _, .uintFull _ | _, .uintKnown _ _ | _, .bytes _ | _, .bytesKnown _ _
  | _, .string _ | _, .cstring _ | _, .checksum32 _ _ | _, .checksum16 _ _ | _, .setEvil _
  | _, .setEndian _ | _, .tell | _, .fileSize | _, .note _ _ => True
  | _, .count _ derived => m = .generate → derived ≠ none
  | _, .endOfFile _ => m = .parse
  | _, .seek _ | _, .skip _ | _, .reserve _ | _, .patch _ _ | _, .lookUInt _ _ _
  | _, .lookBytes _ _ _ | _, .emit _ | _, .remaining => False

def Request.Ranged : {β : Type} → Request β → State K → Prop
  | _, .checksum32 start stop, s | _, .checksum16 start stop, s =>
    start ≤ stop ∧ stop ≤ s.image.cursor
  | _, _, _ => True

def Request.Fitting : {β : Type} → Request β → Prop
  | _, .uintKnown width known => ∀ v ∈ known, v < 256 ^ width
  | _, _ => True

def Request.Orderly (m : Mode) {β : Type} (r : Request β) (l : State K) : Prop :=
  r.Serial m ∧ r.Ranged l ∧ (m = .generate → r.Fitting)

theorem Abreast.answer_leads {β : Type} (r : Request β) (l : State K) (h : r.Orderly m l) :
    (bond m input).Leads r.answer l := by
  obtain ⟨hr, hrange, hfit⟩ := h
  cases r with
  | uint width => exact uint_leads width l
  | uintFull width => exact uintFull_leads width l
  | uintKnown width known => exact uintKnown_leads width known hfit l
  | bytes length => exact bytes_leads length l
  | bytesKnown length known => exact bytesKnown_leads length known l
  | string length => exact string_leads length l
  | cstring most => exact cstring_leads most l
  | count most derived => exact count_leads most derived hr l
  | endOfFile threshold =>
    obtain rfl : m = .parse := hr
    exact endOfFile_leads threshold l
  | checksum32 start stop =>
    exact (fixedSlice_leads hrange.2).bind fun _ _ _ => Bond.Leads.pure _ _
  | checksum16 start stop =>
    exact (fixedSlice_leads hrange.2).bind fun _ _ _ => Bond.Leads.pure _ _
  | setEvil allowed =>
    apply Bond.Leads.still (Quiet.answer (.setEvil allowed))
    intro _ l' hl h
    cases h
    refine ⟨⟨hl.1.like rfl rfl rfl, hl.2⟩, fun h => h, rfl, ?_⟩
    intro f hp
    refine ⟨_, ?_, hp.setEvil ⟨allowed⟩, rfl, rfl⟩
    rw [hp.evil]
    rfl
  | setEndian order =>
    apply Bond.Leads.still (Quiet.answer (.setEndian order))
    intro _ l' hl h
    cases h
    exact ⟨⟨hl.1.like rfl rfl rfl, hl.2⟩, fun h => h, rfl,
      fun f hp => ⟨_, rfl, hp.setEndian order, rfl, rfl⟩⟩
  | tell =>
    apply Bond.Leads.still (Quiet.answer .tell)
    intro _ l' hl h
    cases h
    refine ⟨hl, fun h => h, rfl, fun f hp => ⟨f, ?_, hp, rfl, rfl⟩⟩
    rw [hp.agree.cursor]
    rfl
  | fileSize =>
    apply Bond.Leads.still (Quiet.answer .fileSize)
    intro _ l' hl h
    cases h
    refine ⟨hl, fun h => h, rfl, fun f hp => ⟨f, ?_, hp, rfl, rfl⟩⟩
    rw [hp.agree.size]
    rfl
  | note label value => exact note_leads label value l
  | seek _ | skip _ | reserve _ | patch _ _ | lookUInt _ _ _ | lookBytes _ _ _ | emit _
  | remaining => exact absurd hr (fun h => h)

def Abreast.lockstep [DecidableEq K] (m : Mode) (input : Array UInt8) : Lockstep K where
  toBond := bond m input
  admits r l := r.Orderly m l
  asks r l h := answer_leads r l h
  opens := openScope_leads
  closes := closeScope_leads
  evil _ _ h := h.evil
  setEvil bit _ _ h := h.setEvil bit
  lead_setEvil _ _ h := ⟨h.1.like rfl rfl rfl, h.2⟩
  given_setEvil _ _ := Iff.rfl

end DecisionWalk
