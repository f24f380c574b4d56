import DecisionWalk.Proofs.Lockstep
import DecisionWalk.Proofs.Reserving

/-!
# What a parse accepts

A rule splits what is ahead of a parse into the bytes that it reads and the
rest. The language of a rule tells which splits there are, what the rule gives
for each, and how many decisions it may record. A rule scans its language when
it reads nothing else, and refuses nothing of it as long as the stream has room.
-/

set_option autoImplicit false

namespace DecisionWalk

open Image Walker

variable {K α β : Type}

/-- A parse that has `past` behind it, all of it fixed, and `rest` ahead of it, of which it has
looked at nothing beyond the offset `seen`. -/
structure Scanning (e : Endian) (b : Bool) (seen : Nat) (past rest : Bytes) (s : State K) :
    Prop where
  sound : Sound .parse s
  endian : s.endian = e
  evil : s.evil = ⟨b⟩
  bytes : s.image.bytes = (past ++ rest).toArray
  cursor : s.image.cursor = past.length
  reached : past.length ≤ s.image.size
  size : s.image.size ≤ max past.length seen
  fixed : ∀ i, i < past.length → s.image.fixedAt i = true

structure Scanned (n : Nat) (s t : State K) : Prop where
  stream : ∃ d, d.length = n ∧ t.stream = s.stream.recorded d
  depth : t.tracker.depth = s.tracker.depth
  maxDepth : t.tracker.maxDepth = s.tracker.maxDepth

namespace Scanned

variable {n m : Nat} {s t u : State K}

theorem refl (s : State K) : Scanned 0 s s := ⟨⟨[], rfl, by simp⟩, rfl, rfl⟩

theorem trans (h : Scanned n s t) (h' : Scanned m t u) : Scanned (n + m) s u := by
  obtain ⟨d, hd, hs⟩ := h.stream
  obtain ⟨d', hd', hs'⟩ := h'.stream
  refine ⟨⟨d ++ d', by simp [hd, hd'], ?_⟩, h'.depth.trans h.depth, h'.maxDepth.trans h.maxDepth⟩
  rw [hs', hs, Stream.recorded_recorded]

theorem position (h : Scanned n s t) : t.stream.position = s.stream.position + n := by
  obtain ⟨d, hd, hs⟩ := h.stream
  rw [hs, Stream.recorded_position, hd]

theorem capacity (h : Scanned n s t) : t.stream.capacity = s.stream.capacity := by
  obtain ⟨d, -, hs⟩ := h.stream
  rw [hs, Stream.recorded_capacity]

theorem emitted {bs : Bytes} (h : Emits bs s t) : Scanned 0 s t := by
  refine ⟨⟨[], rfl, ?_⟩, ?_, ?_⟩
  · rw [h.rest, Stream.recorded_nil]
    rfl
  · rw [h.rest]
    exact Tracker.touch_depth _ _
  · rw [h.rest]
    exact Tracker.touch_maxDepth _ _

theorem coded (s : State K) (d : Bytes) : Scanned d.length s (s.recorded d) :=
  ⟨⟨d, rfl, rfl⟩, rfl, rfl⟩

end Scanned

namespace Scanning

variable {e : Endian} {b : Bool} {seen : Nat} {past rest u v : Bytes} {s t : State K}

theorem like {e' : Endian} {b' : Bool} (h : Scanning e b seen past rest s) (hm : t.mode = s.mode)
    (hw : t.watches = s.watches) (hi : t.image = s.image) (he : t.endian = e')
    (hb : t.evil = ⟨b'⟩) : Scanning e' b' seen past rest t :=
  ⟨h.sound.like hm hw hi, he, hb, hi ▸ h.bytes, hi ▸ h.cursor, hi ▸ h.reached, hi ▸ h.size,
    hi ▸ h.fixed⟩

theorem recorded (h : Scanning e b seen past rest s) (d : Bytes) :
    Scanning e b seen past rest (s.recorded d) :=
  h.like rfl rfl rfl h.endian h.evil

theorem tracking (h : Scanning e b seen past rest s) (tracker : Tracker K) :
    Scanning e b seen past rest (s.tracking tracker) :=
  h.like rfl rfl rfl h.endian h.evil

theorem limit (h : Scanning e b seen past rest s) :
    s.image.limit = past.length + rest.length := by
  rw [h.sound.limit_parse, h.bytes, List.size_toArray, List.length_append]

theorem window (h : Scanning e b seen past rest s) (p n : Nat) :
    s.image.window p n = ((past ++ rest).drop p).take n := by
  rw [Image.window, h.bytes, Array.toList_extract, List.extract_eq_take_drop,
    Nat.add_sub_cancel_left]

/-- Bytes stand at an offset when the input goes on with them there. -/
theorem stands_at (h : Scanning e b seen past rest s) {p : Nat} (bs : Bytes)
    (hp : p ≤ past.length + rest.length) :
    (s.image.moveTo p).Stands bs ↔ bs <+: (past ++ rest).drop p := by
  have hsize : s.image.bytes.size = past.length + rest.length := by
    rw [h.bytes, List.size_toArray, List.length_append]
  rw [List.prefix_iff_eq_take, ← h.window p bs.length]
  constructor
  · intro hst
    exact (stands_window hst).symm
  · intro hbs
    have hlen : bs.length ≤ past.length + rest.length - p := by
      rw [hbs, h.window, List.length_take, List.length_drop, List.length_append]
      omega
    have hw := window_stands (s.image.moveTo p) bs.length
      (show p + bs.length ≤ s.image.bytes.size by omega)
    have hsame : (s.image.moveTo p).window p bs.length = bs := hbs.symm
    rw [moveTo_cursor, hsame] at hw
    exact hw

theorem stands_iff (h : Scanning e b seen past rest s) (bs : Bytes) :
    s.image.Stands bs ↔ bs <+: rest := by
  have hat := h.stands_at bs (Nat.le_add_right past.length rest.length)
  rw [List.drop_left, ← h.cursor] at hat
  exact hat

theorem emitted (h : Scanning e b seen past (u ++ v) s) (he : Emits u s t) (ht : Sound .parse t) :
    Scanning e b seen (past ++ u) v t := by
  have hw := he.writes
  have hcur := h.cursor
  have hreached := h.reached
  have hsize := h.size
  refine ⟨ht, ?_, ?_, ?_, ?_, ?_, ?_, ?_⟩
  · rw [he.rest]
    exact h.endian
  · rw [he.rest]
    exact h.evil
  · rw [he.input h.sound.mode, h.bytes, List.append_assoc]
  · rw [hw.cursor, hcur, List.length_append]
  · rw [hw.size, hcur, List.length_append]
    omega
  · rw [hw.size, hcur, List.length_append]
    omega
  · intro i hi
    rw [List.length_append] at hi
    rw [hw.fixedAt, Bool.or_eq_true, decide_eq_true_eq, hcur]
    by_cases hp : i < past.length
    · exact Or.inl (h.fixed i hp)
    · exact Or.inr (by omega)

theorem emits (h : Scanning e b seen past (u ++ v) s) :
    ∃ t, emit u s = .ok () t ∧ Scanning e b seen (past ++ u) v t ∧ Scanned 0 s t := by
  obtain ⟨t, ht, he, hs⟩ := emit_parse h.sound ((h.stands_iff u).2 (List.prefix_append u v))
  exact ⟨t, ht, h.emitted he hs, .emitted he⟩

theorem emit_reads {bs : Bytes} {r : Unit} (h : Scanning e b seen past rest s)
    (hx : emit bs s = .ok r t) :
    ∃ v, rest = bs ++ v ∧ Scanning e b seen (past ++ bs) v t ∧ Scanned 0 s t := by
  obtain ⟨-, -, -, hst⟩ := emit_ok h.sound hx
  obtain ⟨v, rfl⟩ := (h.stands_iff bs).1 (hst rfl)
  obtain ⟨t', ht', hscan, hstep⟩ := h.emits
  rw [ht'] at hx
  cases hx
  exact ⟨v, rfl, hscan, hstep⟩

theorem forgets (h : Scanning e b seen past rest s) (hseen : seen ≤ past.length) :
    s.image.size = past.length := by
  have h1 := h.reached
  have h2 := h.size
  omega

theorem weaken {more : Nat} (h : Scanning e b seen past rest s)
    (hmore : max past.length seen ≤ max past.length more) : Scanning e b more past rest s :=
  ⟨h.sound, h.endian, h.evil, h.bytes, h.cursor, h.reached, Nat.le_trans h.size hmore, h.fixed⟩

end Scanning

section Field

variable {f : Field K α} {opens shut : Image → Prop} {fits : Bool → α → Prop} {code : α → Bytes}
  {s t : State K} {a : α}

theorem Field.Lawful.parsed (hf : f.Lawful opens shut fits code) (hs : Sound .parse s)
    (h : f.read s = .ok a t) :
    fits s.evil.allowed a ∧ emit (f.encode s.endian a) (s.recorded (code a)) = .ok () t := by
  obtain ⟨r, s', h1, h2⟩ := bind_ok.1 h
  obtain ⟨w, s'', h3, h4⟩ := bind_ok.1 h2
  obtain ⟨_, t', h5, h6⟩ := bind_ok.1 ((get_bind _ s'').symm.trans h4)
  cases h6
  obtain ⟨rfl, v, rfl, -⟩ := hf.finds .parse s r s' hs (Or.inl rfl) h1
  have hfits := hf.admits .parse s' v a s'' hs (Or.inl rfl) h1 h3
  obtain ⟨rfl, rfl, -⟩ := hf.codec.forced s' v a s'' hfits h3
  exact ⟨hfits, h5⟩

theorem Field.Lawful.parses (hf : f.Lawful opens shut fits code) (hs : Sound .parse s)
    (hfits : fits s.evil.allowed a) (hst : s.image.Stands (f.encode s.endian a))
    (hroom : s.stream.position + (code a).length ≤ s.stream.capacity) :
    f.read s = (emit (f.encode s.endian a) >>= fun _ => pure a : Walker K α)
      (s.recorded (code a)) := by
  have h1 := hf.found .parse s _ a hs (Or.inl rfl) hfits hst
  have h2 := hf.codec.force s a hfits hroom
  rw [Field.read, bind_run h1, bind_run h2, get_bind, State.recorded_endian]

end Field

abbrev Lang (α : Type) := Bytes → Bytes → α → Nat → Prop

/-- With `past` behind it the action reads what its language has, and all of that. It opens at most
`depth` productions inside each other. -/
structure Scans (e : Endian) (b : Bool) (seen depth : Nat) (past : Bytes) (x : Walker K α)
    (lang : Lang α) : Prop where
  sound : ∀ rest s a t, Scanning e b seen past rest s → x s = .ok a t →
    ∃ u v n, rest = u ++ v ∧ lang u v a n ∧ Scanning e b seen (past ++ u) v t ∧ Scanned n s t
  complete : ∀ u v s a, Scanning e b seen past (u ++ v) s → (∃ n, lang u v a n) →
    (∀ n, lang u v a n → s.stream.position + n ≤ s.stream.capacity) →
    s.tracker.depth + depth ≤ s.tracker.maxDepth →
    ∃ t n, x s = .ok a t ∧ lang u v a n ∧ Scanning e b seen (past ++ u) v t ∧ Scanned n s t

namespace Scans

variable {e : Endian} {b : Bool} {seen depth : Nat} {past : Bytes} {x : Walker K α}
  {lang : Lang α}

/-- Another description of the same language, perhaps with a coarser count of decisions. -/
theorem describe {lang' : Lang α} (h : Scans e b seen depth past x lang)
    (into : ∀ u v a n, lang u v a n → lang' u v a n)
    (from' : ∀ u v a n, lang' u v a n → ∃ m, lang u v a m) :
    Scans e b seen depth past x lang' := by
  refine ⟨?_, ?_⟩
  · intro rest s a t hs hx
    obtain ⟨u, v, n, hrest, hl, hscan, hstep⟩ := h.sound rest s a t hs hx
    exact ⟨u, v, n, hrest, into u v a n hl, hscan, hstep⟩
  · intro u v s a hs hl hroom hdepth
    obtain ⟨n, hn⟩ := hl
    obtain ⟨t, m, hx, hm, hscan, hstep⟩ := h.complete u v s a hs (from' u v a n hn)
      (fun m hm => hroom m (into u v a m hm)) hdepth
    exact ⟨t, m, hx, into u v a m hm, hscan, hstep⟩

theorem pure (a : α) :
    Scans e b seen depth past (pure a : Walker K α) fun u _ c n => u = [] ∧ c = a ∧ n = 0 := by
  refine ⟨?_, ?_⟩
  · intro rest s c t hs hx
    cases hx
    exact ⟨[], rest, 0, rfl, ⟨rfl, rfl, rfl⟩, by rwa [List.append_nil], .refl s⟩
  · intro u v s c hs hl _ _
    obtain ⟨n, rfl, rfl, rfl⟩ := hl
    exact ⟨s, 0, rfl, ⟨rfl, rfl, rfl⟩, by rwa [List.append_nil], .refl s⟩

/-- An action that only looks at its state gives a value that the rest determines. -/
theorem observe (value : Bytes → α)
    (h : ∀ rest s, Scanning e b seen past rest s → x s = .ok (value rest) s) :
    Scans e b seen depth past x fun u v a n => u = [] ∧ a = value v ∧ n = 0 := by
  refine ⟨?_, ?_⟩
  · intro rest s a t hs hx
    rw [h rest s hs] at hx
    cases hx
    exact ⟨[], rest, 0, rfl, ⟨rfl, rfl, rfl⟩, by rwa [List.append_nil], .refl s⟩
  · intro u v s a hs hl _ _
    obtain ⟨n, rfl, rfl, rfl⟩ := hl
    exact ⟨s, 0, h v s hs, ⟨rfl, rfl, rfl⟩, by rwa [List.append_nil], .refl s⟩

theorem refuses (h : ∀ s a t, x s ≠ .ok a t) :
    Scans e b seen depth past x fun _ _ _ _ => False := by
  refine ⟨?_, ?_⟩
  · intro rest s a t _ hx
    exact absurd hx (h s a t)
  · intro u v s a _ hl _ _
    obtain ⟨_, hl⟩ := hl
    exact hl.elim

/-- A sequence reads what its parts read one after the other. -/
theorem bind {f : α → Walker K β} {whole : Lang β} (next : α → Bytes → Lang β)
    (hx : Scans e b seen depth past x lang)
    (hf : ∀ a u, (∃ v n, lang u v a n) → Scans e b seen depth (past ++ u) (f a) (next a u))
    (into : ∀ u w v a c n m, lang u (w ++ v) a n → next a u w v c m →
      whole (u ++ w) v c (n + m))
    (from' : ∀ r v c n, whole r v c n → ∃ u w a, r = u ++ w ∧ (∃ m, lang u (w ++ v) a m) ∧
      ∃ m, next a u w v c m) :
    Scans e b seen depth past (x >>= f) whole := by
  refine ⟨?_, ?_⟩
  · intro rest s c t hs h
    obtain ⟨a, s', h1, h2⟩ := bind_ok.1 h
    obtain ⟨u, v', n, rfl, hl, hs', hstep⟩ := hx.sound rest s a s' hs h1
    obtain ⟨w, v, m, rfl, hl', ht, hstep'⟩ := (hf a u ⟨_, _, hl⟩).sound v' s' c t hs' h2
    refine ⟨u ++ w, v, n + m, (List.append_assoc _ _ _).symm, into u w v a c n m hl hl', ?_,
      hstep.trans hstep'⟩
    rw [← List.append_assoc]
    exact ht
  · intro r v s c hs hl hroom hdepth
    obtain ⟨_, hl⟩ := hl
    obtain ⟨u, w, a, rfl, ⟨n, hn⟩, m, hm⟩ := from' _ _ _ _ hl
    rw [List.append_assoc] at hs
    obtain ⟨s', n', h1, hn', hs', hstep⟩ := hx.complete u (w ++ v) s a hs ⟨n, hn⟩
      (fun k hk => by have := hroom _ (into u w v a c k m hk hm); omega) hdepth
    have hpos := hstep.position
    have hcap := hstep.capacity
    have hd := hstep.depth
    have hmd := hstep.maxDepth
    obtain ⟨t, m', h2, hm', ht, hstep'⟩ := (hf a u ⟨_, _, hn⟩).complete w v s' c hs' ⟨m, hm⟩
      (fun k hk => by have := hroom _ (into u w v a c n' k hn' hk); omega) (by omega)
    refine ⟨t, n' + m', (bind_run h1).trans h2, into u w v a c n' m' hn' hm', ?_,
      hstep.trans hstep'⟩
    rw [← List.append_assoc]
    exact ht

/-- What has been looked at is behind the cursor once the action has read that far. -/
theorem within {more : Nat} (h : Scans e b more depth past x lang)
    (hmore : seen ≤ max past.length more)
    (hread : ∀ u v a n, lang u v a n → more ≤ max (past.length + u.length) seen) :
    Scans e b seen depth past x lang := by
  have hover : ∀ u v a n (t : State K), lang u v a n → Scanning e b more (past ++ u) v t →
      Scanning e b seen (past ++ u) v t := by
    intro u v a n t hl ht
    have := hread u v a n hl
    apply ht.weaken
    rw [List.length_append]
    omega
  have hstart : ∀ rest (s : State K), Scanning e b seen past rest s →
      Scanning e b more past rest s := by
    intro rest s hs
    exact hs.weaken (by omega)
  refine ⟨?_, ?_⟩
  · intro rest s a t hs hx
    obtain ⟨u, v, n, hrest, hl, ht, hstep⟩ := h.sound rest s a t (hstart rest s hs) hx
    exact ⟨u, v, n, hrest, hl, hover u v a n t hl ht, hstep⟩
  · intro u v s a hs hl hroom hdepth
    obtain ⟨t, n, hx, hn, ht, hstep⟩ := h.complete u v s a (hstart _ s hs) hl hroom hdepth
    exact ⟨t, n, hx, hn, hover u v a n t hn ht, hstep⟩

theorem settled (h : Scans e b 0 depth past x lang) (hseen : seen ≤ past.length) :
    Scans e b seen depth past x lang :=
  h.within (by omega) (fun _ _ _ _ _ => Nat.zero_le _)

/-- A field is read where its bytes stand, and records the code of its value. -/
theorem field {f : Field K α} {opens shut : Image → Prop} {fits : Bool → α → Prop}
    {code : α → Bytes} (hf : f.Lawful opens shut fits code) :
    Scans e b seen depth past f.read
      fun u _ a n => u = f.encode e a ∧ fits b a ∧ n = (code a).length := by
  refine ⟨?_, ?_⟩
  · intro rest s a t hs hx
    obtain ⟨hfits, h⟩ := hf.parsed hs.sound hx
    rw [hs.endian] at h
    rw [hs.evil] at hfits
    obtain ⟨v, rfl, ht, hstep⟩ := (hs.recorded (code a)).emit_reads h
    exact ⟨_, v, _, rfl, ⟨rfl, hfits, rfl⟩, ht, (Scanned.coded s _).trans hstep⟩
  · intro u v s a hs hl hroom _
    obtain ⟨n, rfl, hfits, rfl⟩ := hl
    have hroom' := hroom (code a).length ⟨rfl, hfits, rfl⟩
    have hst := (hs.stands_iff _).2 (List.prefix_append (f.encode e a) v)
    rw [← hs.endian] at hst
    have hx := hf.parses hs.sound (by rw [hs.evil]; exact hfits) hst hroom'
    obtain ⟨t, h, ht, hstep⟩ := (hs.recorded (code a)).emits
    refine ⟨t, _, ?_, ⟨rfl, hfits, rfl⟩, ht, (Scanned.coded s _).trans hstep⟩
    rw [hx, hs.endian, bind_run h, pure_run]

section Productions

variable [DecidableEq K]

theorem seq {g : Grammar K α} {f : α → Grammar K β} {whole : Lang β} (next : α → Bytes → Lang β)
    (hg : Scans e b seen depth past g.run lang)
    (hf : ∀ a u, (∃ v n, lang u v a n) → Scans e b seen depth (past ++ u) (f a).run (next a u))
    (into : ∀ u w v a c n m, lang u (w ++ v) a n → next a u w v c m →
      whole (u ++ w) v c (n + m))
    (from' : ∀ r v c n, whole r v c n → ∃ u w a, r = u ++ w ∧ (∃ m, lang u (w ++ v) a m) ∧
      ∃ m, next a u w v c m) :
    Scans e b seen depth past (g >>= f).run whole := by
  rw [Grammar.run_bind]
  exact hg.bind next hf into from'

/-- Behind a look at the state comes what follows for the value that the rest determines. -/
theorem given {g : Grammar K α} {f : α → Grammar K β} (next : α → Lang β) (value : Bytes → α)
    (hg : ∀ rest s, Scanning e b seen past rest s → g.run s = .ok (value rest) s)
    (hf : ∀ rest, Scans e b seen depth past (f (value rest)).run (next (value rest))) :
    Scans e b seen depth past (g >>= f).run fun u v c n => next (value (u ++ v)) u v c n := by
  rw [Grammar.run_bind]
  refine ⟨?_, ?_⟩
  · intro rest s c t hs h
    rw [bind_run (hg rest s hs)] at h
    obtain ⟨u, v, n, rfl, hl, ht⟩ := (hf _).sound rest s c t hs h
    exact ⟨u, v, n, rfl, hl, ht⟩
  · intro u v s c hs hl hroom hdepth
    obtain ⟨t, n, h, hn⟩ := (hf _).complete u v s c hs hl hroom hdepth
    exact ⟨t, n, (bind_run (hg _ s hs)).trans h, hn⟩

theorem knowing {g : Grammar K α} {f : α → Grammar K β} {next : Lang β} {a : α}
    (hg : ∀ rest s, Scanning e b seen past rest s → g.run s = .ok a s)
    (hf : Scans e b seen depth past (f a).run next) :
    Scans e b seen depth past (g >>= f).run next :=
  given (fun _ => next) (fun _ => a) hg fun _ => hf

theorem discard {g : Grammar K α} {lang' : Bytes → Bytes → Nat → Prop}
    (hg : Scans e b seen depth past g.run lang)
    (hlang : ∀ u v n, (∃ a, lang u v a n) ↔ lang' u v n) :
    Scans e b seen depth past (discard g : Grammar K Unit).run fun u v _ n => lang' u v n := by
  rw [Grammar.run_discard]
  apply hg.bind _ (fun _ _ _ => Scans.pure ())
  · rintro u w v a c n m h ⟨rfl, -, rfl⟩
    rw [List.append_nil]
    exact (hlang u v n).1 ⟨a, h⟩
  · intro r v c n h
    obtain ⟨a, ha⟩ := (hlang r v n).2 h
    exact ⟨r, [], a, (List.append_nil r).symm, ⟨n, ha⟩, 0, rfl, rfl, rfl⟩

theorem underEvil {body : Grammar K α} (allowed : Bool)
    (hb : Scans e allowed seen depth past body.run lang) :
    Scans e b seen depth past (Grammar.underEvil allowed body).run lang := by
  rw [Grammar.run_underEvil]
  refine ⟨?_, ?_⟩
  · intro rest s a t hs h
    rw [Walker.withEvil] at h
    cases hx : body.run { s with evil := ⟨allowed⟩ } with
    | error e t =>
      rw [hx] at h
      cases h
    | ok c t =>
      rw [hx] at h
      cases h
      obtain ⟨u, v, n, hrest, hl, ht, hstep⟩ := hb.sound rest
        { s with evil := ⟨allowed⟩ } a t (hs.like rfl rfl rfl hs.endian rfl) hx
      exact ⟨u, v, n, hrest, hl, ht.like rfl rfl rfl ht.endian hs.evil,
        ⟨hstep.stream, hstep.depth, hstep.maxDepth⟩⟩
  · intro u v s a hs hl hroom hdepth
    obtain ⟨t, n, hx, hn, ht, hstep⟩ := hb.complete u v { s with evil := ⟨allowed⟩ } a
      (hs.like rfl rfl rfl hs.endian rfl) hl hroom hdepth
    refine ⟨{ t with evil := s.evil }, n, ?_, hn, ht.like rfl rfl rfl ht.endian hs.evil,
      ⟨hstep.stream, hstep.depth, hstep.maxDepth⟩⟩
    rw [Walker.withEvil, hx]

theorem inScope {body : Grammar K α} (name : String) (kind : K)
    (hb : Scans e b seen depth past body.run lang) :
    Scans e b seen (depth + 1) past (Grammar.inScope name kind body).run lang := by
  have hclosed : ∀ n (s t : State K),
      Scanned n (s.tracking (s.tracker.opened name kind s.stream.position s.image.cursor)) t →
      Scanned n s (t.tracking (t.tracker.closed t.stream.position t.image.cursor)) := by
    intro n s t hstep
    refine ⟨hstep.stream, ?_, ?_⟩
    · have h1 : t.tracker.depth = s.tracker.depth + 1 :=
        hstep.depth.trans (Tracker.opened_depth _ _ _ _ _)
      have h2 : (t.tracker.closed t.stream.position t.image.cursor).depth =
          t.tracker.depth - 1 := Tracker.closed_depth _ _ _
      show (t.tracker.closed t.stream.position t.image.cursor).depth = _
      omega
    · exact (Tracker.closed_maxDepth _ _ _).trans
        (hstep.maxDepth.trans (Tracker.opened_maxDepth _ _ _ _ _))
  rw [Grammar.run_inScope]
  refine ⟨?_, ?_⟩
  · intro rest s a t hs h
    obtain ⟨d, s1, h1, h2⟩ := bind_ok.1 h
    obtain ⟨c, s2, h3, h4⟩ := bind_ok.1 h2
    obtain ⟨_, s3, h5, h6⟩ := bind_ok.1 h4
    cases h6
    obtain ⟨-, rfl⟩ := openScope_ok hs.sound.watches h1
    obtain ⟨u, v, n, hrest, hl, hs2, hstep⟩ := hb.sound rest _ a s2 (hs.tracking _) h3
    rw [closeScope_run d hs2.sound.watches] at h5
    cases h5
    exact ⟨u, v, n, hrest, hl, hs2.tracking _, hclosed n s s2 hstep⟩
  · intro u v s a hs hl hroom hdepth
    have hopen : s.tracker.depth < s.tracker.maxDepth := by omega
    have hinner : (s.tracker.opened name kind s.stream.position s.image.cursor).depth + depth ≤
        (s.tracker.opened name kind s.stream.position s.image.cursor).maxDepth := by
      rw [Tracker.opened_depth, Tracker.opened_maxDepth]
      omega
    obtain ⟨t, n, hx, hn, ht, hstep⟩ := hb.complete u v
      (s.tracking (s.tracker.opened name kind s.stream.position s.image.cursor)) a
      (hs.tracking _) hl hroom hinner
    refine ⟨_, n, ?_, hn, ht.tracking _, hclosed n s t hstep⟩
    rw [bind_run (openScope_run name kind hs.sound.watches hopen), bind_run hx,
      bind_run (closeScope_run _ ht.sound.watches), pure_run]

end Productions

end Scans

section Loop

variable {e : Endian} {b : Bool} {seen depth : Nat} {past : Bytes}
  {step : Unit → Walker K (Unit ⊕ β)} {lang : Lang (Unit ⊕ β)}

inductive Turns (lang : Lang (Unit ⊕ β)) : Lang β where
  | last {u v : Bytes} {c : β} {n : Nat} (h : lang u v (.inr c) n) : Turns lang u v c n
  | again {u w v : Bytes} {c : β} {n m : Nat} (h : lang u (w ++ v) (.inl ()) n)
      (rest : Turns lang w v c m) : Turns lang (u ++ w) v c (n + m)

theorem settle_ends {σ : Type} {step : σ → Walker K (σ ⊕ β)} {start idle : Nat} {a : σ} {c : β}
    {s t : State K} (h : Grammar.settle step start idle a s = .ok (.inr c) t) :
    ∃ a' s', Rounds step a s a' s' ∧ step a' s' = .ok (.inr c) t := by
  induction idle generalizing a s with
  | zero => exact absurd h (throw_not_ok _ _ _ _)
  | succ idle ih =>
    cases hx : step a s with
    | error e u =>
      rw [settle_error hx] at h
      cases h
    | ok r u =>
      cases r with
      | inr d =>
        rw [settle_inr hx] at h
        cases h
        exact ⟨a, s, .here a s, hx⟩
      | inl again =>
        rw [settle_inl hx] at h
        by_cases hm : start < u.stream.position
        · rw [if_pos hm] at h
          cases h
        · rw [if_neg hm] at h
          obtain ⟨a', s', hr, hend⟩ := ih h
          exact ⟨a', s', .next hx hr, hend⟩

theorem iterate_ends {σ : Type} {step : σ → Walker K (σ ⊕ β)} {left : Nat} {a : σ} {c : β}
    {s t : State K} (h : Grammar.iterate step left a s = .ok c t) :
    ∃ a' s', Rounds step a s a' s' ∧ step a' s' = .ok (.inr c) t := by
  induction left generalizing a s with
  | zero => exact absurd h (throw_not_ok _ _ _ _)
  | succ left ih =>
    cases hx : Grammar.settle step s.stream.position Grammar.idleRounds a s with
    | error e u =>
      rw [iterate_error hx] at h
      cases h
    | ok r u =>
      cases r with
      | inr d =>
        rw [iterate_inr hx] at h
        cases h
        exact settle_ends hx
      | inl again =>
        rw [iterate_inl hx] at h
        obtain ⟨a', s', hr, hend⟩ := ih h
        exact ⟨a', s', (settle_rounds hx).trans hr, hend⟩

theorem rounds_scan (hstep : ∀ past, Scans e b seen depth past (step ()) lang) {a a' : Unit}
    {s s' : State K} (hr : Rounds step a s a' s') {past rest : Bytes} {c : β} {t : State K}
    (hs : Scanning e b seen past rest s) (hend : step a' s' = .ok (.inr c) t) :
    ∃ u v n, rest = u ++ v ∧ Turns lang u v c n ∧ Scanning e b seen (past ++ u) v t ∧
      Scanned n s t := by
  induction hr generalizing past rest with
  | here a s =>
    obtain ⟨u, v, n, hrest, hl, ht, hstep'⟩ := (hstep past).sound rest s _ t hs hend
    exact ⟨u, v, n, hrest, .last hl, ht, hstep'⟩
  | next h _ ih =>
    obtain ⟨u, v, n, rfl, hl, ht, hfirst⟩ := (hstep past).sound rest _ _ _ hs h
    obtain ⟨w, v', m, rfl, hturns, ht', hrest⟩ := ih ht hend
    refine ⟨u ++ w, v', n + m, (List.append_assoc _ _ _).symm, .again hl hturns, ?_,
      hfirst.trans hrest⟩
    rw [← List.append_assoc]
    exact ht'

/-- A loop goes through all the rounds that it finds, since each of them takes a decision. -/
theorem iterate_scans (hstep : ∀ past, Scans e b seen depth past (step ()) lang)
    (hspends : ∀ u v n, lang u v (.inl ()) n → 0 < n) {u v : Bytes} {c : β} {n : Nat}
    (hturns : Turns lang u v c n) (past : Bytes) (s : State K) (left : Nat)
    (hs : Scanning e b seen past (u ++ v) s)
    (hroom : ∀ n, Turns lang u v c n → s.stream.position + n ≤ s.stream.capacity)
    (hdepth : s.tracker.depth + depth ≤ s.tracker.maxDepth)
    (hleft : s.stream.capacity < s.stream.position + left) :
    ∃ t n, Grammar.iterate step left () s = .ok c t ∧ Turns lang u v c n ∧
      Scanning e b seen (past ++ u) v t ∧ Scanned n s t := by
  have hidle : Grammar.idleRounds = (Grammar.idleRounds - 1) + 1 := by decide
  induction hturns generalizing past s left with
  | last h =>
    obtain ⟨t, n, hx, hn, ht, hscan⟩ := (hstep past).complete _ _ s _ hs ⟨_, h⟩
      (fun n hn => hroom n (.last hn)) hdepth
    have hpos := hroom _ (.last h)
    obtain ⟨left, rfl⟩ : ∃ k, left = k + 1 := ⟨left - 1, by omega⟩
    refine ⟨t, n, ?_, .last hn, ht, hscan⟩
    apply iterate_inr
    rw [hidle]
    exact settle_inr hx
  | again h hrest ih =>
    rw [List.append_assoc] at hs
    obtain ⟨t, n, hx, hn, ht, hscan⟩ := (hstep past).complete _ _ s _ hs ⟨_, h⟩
      (fun n hn => by have := hroom _ (.again hn hrest); omega) hdepth
    have hpos := hscan.position
    have hcap := hscan.capacity
    have hd := hscan.depth
    have hmd := hscan.maxDepth
    have hmoved := hspends _ _ _ hn
    have hfits := hroom _ (.again hn hrest)
    obtain ⟨left, rfl⟩ : ∃ k, left = k + 1 := ⟨left - 1, by omega⟩
    have hround : Grammar.settle step s.stream.position Grammar.idleRounds () s =
        .ok (.inl ()) t := by
      rw [hidle, settle_inl hx, if_pos (by omega)]
    obtain ⟨t', m, hy, hm, ht', hscan'⟩ := ih _ t left ht
      (fun m hm => by have := hroom _ (.again hn hm); omega) (by omega) (by omega)
    refine ⟨t', n + m, (iterate_inl hround).trans hy, .again hn hm, ?_, hscan.trans hscan'⟩
    rw [← List.append_assoc]
    exact ht'

theorem Scans.repeatFrom [DecidableEq K] {body : Unit → Grammar K (Unit ⊕ β)}
    (hbody : ∀ past, Scans e b seen depth past (body ()).run lang)
    (hspends : ∀ u v n, lang u v (.inl ()) n → 0 < n) :
    Scans e b seen depth past (Grammar.repeatFrom () body).run (Turns lang) := by
  rw [Grammar.run_repeatFrom]
  refine ⟨?_, ?_⟩
  · intro rest s c t hs h
    rw [get_bind] at h
    obtain ⟨a', s', hr, hend⟩ := iterate_ends h
    exact rounds_scan hbody hr hs hend
  · intro u v s c hs hl hroom hdepth
    obtain ⟨n, hn⟩ := hl
    rw [get_bind]
    exact iterate_scans hbody hspends hn past s _ hs hroom hdepth (by omega)

end Loop

end DecisionWalk
