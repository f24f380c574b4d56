import DecisionWalk.Proofs.Readings

/-!
# Rules that read alike everywhere

Most rules of a format do not care where in the file they stand. What such a rule
reads at one place it reads at any other, whatever is behind it there, with the
same answer and the same decisions. A rule may hold on to a position, to take a
checksum from there or to patch a field, as long as it only uses it as a distance
from its own start.
-/

set_option autoImplicit false

namespace DecisionWalk

open Walker Sampler

variable {K α β : Type} {e : Endian} {b : Bool} {seen look depth least m : Nat}

structure Noted (d : Bytes) (s t : State K) : Prop where
  stream : t.stream = s.stream.recorded d
  depth : t.tracker.depth = s.tracker.depth
  maxDepth : t.tracker.maxDepth = s.tracker.maxDepth

namespace Noted

variable {c d : Bytes} {s t u : State K}

theorem refl (s : State K) : Noted [] s s := ⟨(Stream.recorded_nil _).symm, rfl, rfl⟩

theorem trans (h : Noted c s t) (h' : Noted d t u) : Noted (c ++ d) s u :=
  ⟨by rw [h'.stream, h.stream, Stream.recorded_recorded], h'.depth.trans h.depth,
    h'.maxDepth.trans h.maxDepth⟩

theorem coded (s : State K) (d : Bytes) : Noted d s (s.recorded d) := ⟨rfl, rfl, rfl⟩

theorem silent (h : Scanned 0 s t) : Noted [] s t := by
  obtain ⟨d, hd, hs⟩ := h.stream
  rw [List.length_eq_zero_iff.1 hd] at hs
  exact ⟨hs, h.depth, h.maxDepth⟩

theorem position (h : Noted d s t) : t.stream.position = s.stream.position + d.length := by
  rw [h.stream, Stream.recorded_position]

theorem capacity (h : Noted d s t) : t.stream.capacity = s.stream.capacity := by
  rw [h.stream, Stream.recorded_capacity]

theorem consumed (h : Noted d s t) : t.stream.consumed = s.stream.consumed ++ d := by
  rw [h.stream, Stream.recorded_consumed]

end Noted

def Recites (e : Endian) (b : Bool) (seen depth : Nat) (past : Bytes) (x : Walker K α)
    (u d : Bytes) (a : α) : Prop :=
  ∀ v s, Scanning e b seen past (u ++ v) s → s.stream.position + d.length ≤ s.stream.capacity →
    s.tracker.depth + depth ≤ s.tracker.maxDepth →
    ∃ t, x s = .ok a t ∧ Scanning e b seen (past ++ u) v t ∧ Noted d s t

theorem Recites.bind {past u w c d : Bytes} {x : Walker K α} {f : α → Walker K β} {a : α} {r : β}
    (hx : Recites e b seen depth past x u c a)
    (hf : Recites e b seen depth (past ++ u) (f a) w d r) :
    Recites e b seen depth past (x >>= f) (u ++ w) (c ++ d) r := by
  intro v s hs hroom hdepth
  rw [List.length_append] at hroom
  rw [List.append_assoc] at hs
  obtain ⟨s', h1, hs', hnoted⟩ := hx (w ++ v) s hs (by omega) hdepth
  have hposition := hnoted.position
  have hcapacity := hnoted.capacity
  obtain ⟨t, h2, ht, hnoted'⟩ := hf v s' hs' (by omega)
    (by rw [hnoted.depth, hnoted.maxDepth]; exact hdepth)
  refine ⟨t, (bind_run h1).trans h2, ?_, hnoted.trans hnoted'⟩
  rwa [← List.append_assoc]

section Productions

variable [DecidableEq K] {body : Grammar K α} {past u d : Bytes} {a : α}

omit [DecidableEq K] in
theorem Scanning.evilly {rest : Bytes} {s : State K} (h : Scanning e b seen past rest s)
    (allowed : Bool) : Scanning e allowed seen past rest { s with evil := ⟨allowed⟩ } :=
  h.like rfl rfl rfl h.endian rfl

theorem underEvil_ok {allowed : Bool} {s t : State K}
    (h : (Grammar.underEvil allowed body).run s = .ok a t) :
    ∃ u, body.run { s with evil := ⟨allowed⟩ } = .ok a u ∧ t = { u with evil := s.evil } := by
  rw [Grammar.run_underEvil, Walker.withEvil] at h
  cases hx : body.run { s with evil := ⟨allowed⟩ } with
  | error e u =>
    rw [hx] at h
    cases h
  | ok c u =>
    rw [hx] at h
    cases h
    exact ⟨u, rfl, rfl⟩

theorem inScope_room {name : String} {kind : K} {s t : State K} (hs : s.watches = [])
    (h : (Grammar.inScope name kind body).run s = .ok a t) :
    s.tracker.depth < s.tracker.maxDepth := by
  rw [Grammar.run_inScope] at h
  obtain ⟨_, _, hopen, -⟩ := bind_ok.1 h
  exact (openScope_ok hs hopen).1

theorem inScope_runs {name : String} {kind : K} {s t : State K} (hs : s.watches = [])
    (hroom : s.tracker.depth < s.tracker.maxDepth) (ht : t.watches = [])
    (h : body.run (s.tracking (s.tracker.opened name kind s.stream.position s.image.cursor)) =
      .ok a t) :
    (Grammar.inScope name kind body).run s =
      .ok a (t.tracking (t.tracker.closed t.stream.position t.image.cursor)) := by
  rw [Grammar.run_inScope, bind_run (openScope_run name kind hs hroom), bind_run h,
    bind_run (closeScope_run _ ht), pure_run]

theorem Recites.underEvil {allowed : Bool} (h : Recites e allowed seen depth past body.run u d a) :
    Recites e b seen depth past (Grammar.underEvil allowed body).run u d a := by
  intro v s hs hroom hdepth
  obtain ⟨t, hx, ht, hnoted⟩ := h v _ (hs.evilly allowed) hroom hdepth
  refine ⟨{ t with evil := s.evil }, ?_, ht.like rfl rfl rfl ht.endian hs.evil,
    ⟨hnoted.stream, hnoted.depth, hnoted.maxDepth⟩⟩
  rw [Grammar.run_underEvil, Walker.withEvil, hx]

omit [DecidableEq K] in
theorem Noted.scoped {name : String} {kind : K} {s t : State K}
    (h : Noted d (s.tracking (s.tracker.opened name kind s.stream.position s.image.cursor)) t) :
    Noted d s (t.tracking (t.tracker.closed t.stream.position t.image.cursor)) := by
  have hopened : t.tracker.depth = s.tracker.depth + 1 :=
    h.depth.trans (Tracker.opened_depth _ _ _ _ _)
  refine ⟨h.stream, ?_, (Tracker.closed_maxDepth _ _ _).trans
    (h.maxDepth.trans (Tracker.opened_maxDepth _ _ _ _ _))⟩
  show (t.tracker.closed t.stream.position t.image.cursor).depth = _
  rw [Tracker.closed_depth]
  omega

theorem Recites.inScope (name : String) (kind : K)
    (h : Recites e b seen depth past body.run u d a) :
    Recites e b seen (depth + 1) past (Grammar.inScope name kind body).run u d a := by
  intro v s hs hroom hdepth
  have hopen : s.tracker.depth < s.tracker.maxDepth := by omega
  have hinner : (s.tracker.opened name kind s.stream.position s.image.cursor).depth + depth ≤
      (s.tracker.opened name kind s.stream.position s.image.cursor).maxDepth := by
    rw [Tracker.opened_depth, Tracker.opened_maxDepth]
    omega
  obtain ⟨t, hx, ht, hnoted⟩ := h v (s.tracking (s.tracker.opened name kind s.stream.position
    s.image.cursor)) (hs.tracking _) hroom hinner
  exact ⟨_, inScope_runs hs.sound.watches hopen ht.sound.watches hx, ht.tracking _, hnoted.scoped⟩

omit [DecidableEq K] in
theorem Noted.looked {bs : Bytes} {p : Nat} {s t : State K}
    (h : Emits bs (State.recorded { s with image := s.image.moveTo p } d) t) :
    Noted d s (t.back s) := by
  have hboth := (Noted.coded { s with image := s.image.moveTo p } d).trans
    (.silent (.emitted h))
  rw [List.append_nil] at hboth
  exact ⟨hboth.stream, (Tracker.lookahead_depth _ _).trans hboth.depth,
    (Tracker.lookahead_maxDepth _ _).trans hboth.maxDepth⟩

section Looking

variable {off w : Nat} {known : List Bytes} {bs rest : Bytes} {s t : State K}

/-- A look ahead gives what stands there, if it is known. -/
theorem Scanning.looked (h : Scanning e b seen past rest s) (h1 : 1 ≤ w) (hne : known ≠ [])
    (hlen : known.length ≤ 256) (hknown : ∀ bs ∈ known, bs.length = w)
    (hseen : past.length + off + w ≤ seen)
    (hx : (Grammar.underEvil false (Grammar.request (.lookBytes off w known) :
      Grammar K Bytes)).run s = .ok bs t) :
    bs ∈ known ∧ bs = (rest.drop off).take w ∧ Scanning e b seen past rest t ∧
      Noted (knownCode known Alphabet.plain.stringCode bs) s t := by
  obtain ⟨t', hlook, rfl⟩ := underEvil_ok hx
  have hs := h.evilly false
  have hscans : Scans e false seen 0 past
      (Grammar.request (.lookBytes off w known) : Grammar K Bytes).run _ :=
    Scans.lookBytes off w known h1 hne hlen hknown hseen
  obtain ⟨_, _, _, rfl, ⟨rfl, hbs, hmem, -⟩, ht, -⟩ := hscans.sound rest _ bs t' hs hlook
  rw [List.append_nil] at ht
  refine ⟨hmem, hbs, ht.like rfl rfl rfl ht.endian h.evil, ?_⟩
  rw [Grammar.run_request, Request.answer, lookBytesKnown, readBytesKnown_eq w known hknown]
    at hlook
  obtain ⟨r, hread, rfl⟩ := ahead_ok hlook
  obtain ⟨-, hemit⟩ := (Field.bytesKnown_lawful (K := K) w known h1 hne hlen hknown).parsed
    (hs.sound.moveTo _) hread
  obtain ⟨hemits, -⟩ := emit_ok ((hs.sound.moveTo _).recorded _) hemit
  have hnoted := Noted.looked hemits
  exact ⟨hnoted.stream, hnoted.depth, hnoted.maxDepth⟩

theorem Scanning.looks (h : Scanning e b seen past rest s) (h1 : 1 ≤ w) (hne : known ≠ [])
    (hlen : known.length ≤ 256) (hknown : ∀ bs ∈ known, bs.length = w)
    (hseen : past.length + off + w ≤ seen) (hmem : bs ∈ known)
    (hbs : bs = (rest.drop off).take w)
    (hroom : s.stream.position + (knownCode known Alphabet.plain.stringCode bs).length ≤
      s.stream.capacity) :
    ∃ t, (Grammar.underEvil false (Grammar.request (.lookBytes off w known) :
        Grammar K Bytes)).run s = .ok bs t ∧
      Scanning e b seen past rest t ∧ Noted (knownCode known Alphabet.plain.stringCode bs) s t := by
  have hs := h.evilly false
  have hw := hknown bs hmem
  have hin : off + w ≤ rest.length := by
    have hlong := congrArg List.length hbs
    rw [List.length_take, List.length_drop] at hlong
    omega
  have hst : (s.image.moveTo (s.image.cursor + off)).Stands bs := by
    rw [hs.cursor]
    apply (hs.stands_at bs (by omega)).2
    rw [← List.drop_drop, List.drop_left, hbs]
    exact List.take_prefix _ _
  have hread := (Field.bytesKnown_lawful (K := K) w known h1 hne hlen hknown).parses (a := bs)
    (hs.sound.moveTo (s.image.cursor + off)) (Or.inl hmem) hst hroom
  obtain ⟨r, hemit, hemits, hr⟩ := emit_parse ((hs.sound.moveTo _).recorded _) hst
  have hlook := ahead_run (hread.trans (bind_run hemit))
  have hrun : (Grammar.underEvil false (Grammar.request (.lookBytes off w known) :
      Grammar K Bytes)).run s =
      .ok bs { r.back { s with evil := ⟨false⟩ } with evil := s.evil } := by
    rw [Grammar.run_underEvil, Walker.withEvil, Grammar.run_request, Request.answer,
      lookBytesKnown, readBytesKnown_eq w known hknown, hlook]
  obtain ⟨-, -, ht, hnoted⟩ := h.looked h1 hne hlen hknown hseen hrun
  exact ⟨_, hrun, ht, hnoted⟩

end Looking

end Productions

/-- What the action reads behind `read`, at least `least` bytes, it reads wherever `read` is behind
it. It is told how many bytes there are in front of `read`, and `look` bytes from there on may have
been looked at. -/
def Portable (e : Endian) (b : Bool) (look depth least : Nat) (read : Bytes)
    (x : Nat → Walker K α) : Prop :=
  ∀ front rest s a t, Scanning e b (front.length + look) (front ++ read) rest s →
    x front.length s = .ok a t →
    ∃ u v d, rest = u ++ v ∧ least ≤ u.length ∧
      Scanning e b (front.length + look) (front ++ read ++ u) v t ∧ Noted d s t ∧
      ∀ front', Recites e b (front'.length + look) depth (front' ++ read) (x front'.length) u d a

namespace Portable

variable {read : Bytes} {x : Nat → Walker K α} {f : Nat → α → Walker K β}

theorem weaken {less : Nat} (h : Portable e b look depth least read x) (hless : less ≤ least) :
    Portable e b look depth less read x := by
  intro front rest s a t hs hx
  obtain ⟨u, v, d, hrest, hleast, hthen⟩ := h front rest s a t hs hx
  exact ⟨u, v, d, hrest, Nat.le_trans hless hleast, hthen⟩

theorem pure (a : α) : Portable e b look depth 0 read fun _ => (Pure.pure a : Walker K α) := by
  intro front rest s c t hs hx
  cases hx
  refine ⟨[], rest, [], rfl, Nat.le_refl 0, by rwa [List.append_nil], .refl s, ?_⟩
  intro front' v s' hs' _ _
  exact ⟨s', rfl, by rwa [List.append_nil], .refl s'⟩

theorem bind (hx : Portable e b look depth least read x)
    (hf : ∀ a u, least ≤ u.length → Portable e b look depth m (read ++ u) fun n => f n a) :
    Portable e b look depth (least + m) read fun n => x n >>= f n := by
  intro front rest s c t hs h
  obtain ⟨a, s', h1, h2⟩ := bind_ok.1 h
  obtain ⟨u, v', d, rfl, hleast, hs', hnoted, hrecites⟩ := hx front rest s a s' hs h1
  rw [List.append_assoc] at hs'
  obtain ⟨w, v, d', rfl, hleast', ht, hnoted', hrecites'⟩ := hf a u hleast front v' s' c t hs' h2
  refine ⟨u ++ w, v, d ++ d', (List.append_assoc _ _ _).symm, ?_, ?_, hnoted.trans hnoted', ?_⟩
  · rw [List.length_append]
    omega
  · rwa [List.append_assoc, ← List.append_assoc read, ← List.append_assoc]
  · intro front'
    have hthen := hrecites' front'
    rw [← List.append_assoc] at hthen
    exact (hrecites front').bind hthen

theorem knowing {g : Nat → Walker K α} (value : Nat → α)
    (hg : ∀ front rest s, Scanning e b (front.length + look) (front ++ read) rest s →
      g front.length s = .ok (value front.length) s)
    (hf : Portable e b look depth least read fun n => f n (value n)) :
    Portable e b look depth least read fun n => g n >>= f n := by
  intro front rest s c t hs h
  have hthen := (bind_run (hg front rest s hs)).symm.trans h
  obtain ⟨u, v, d, hrest, hleast, ht, hnoted, hrecites⟩ := hf front rest s c t hs hthen
  refine ⟨u, v, d, hrest, hleast, ht, hnoted, ?_⟩
  intro front' v' s' hs' hroom hdepth
  obtain ⟨t', h', hthen⟩ := hrecites front' v' s' hs' hroom hdepth
  exact ⟨t', (bind_run (hg front' _ s' hs')).trans h', hthen⟩

/-- A step that takes no decisions, and what follows for the bytes that it reads. -/
theorem silently (holds : Bytes → Prop) (value : Nat → Bytes → α)
    (hx : ∀ front, Scans e b (front.length + look) depth (front ++ read) (x front.length)
      fun u _ a n => holds u ∧ a = value front.length u ∧ n = 0)
    (hleast : ∀ u, holds u → least ≤ u.length)
    (hf : ∀ u, holds u → Portable e b look depth m (read ++ u) fun n => f n (value n u)) :
    Portable e b look depth (least + m) read fun n => x n >>= f n := by
  intro front rest s c t hs h
  obtain ⟨a, s', h1, h2⟩ := bind_ok.1 h
  obtain ⟨u, v', n, rfl, ⟨hu, rfl, rfl⟩, hs', hscanned⟩ := (hx front).sound rest s a s' hs h1
  have hlong := hleast u hu
  rw [List.append_assoc] at hs'
  obtain ⟨w, v, d, rfl, hleast', ht, hnoted, hrecites⟩ := hf u hu front v' s' c t hs' h2
  refine ⟨u ++ w, v, [] ++ d, (List.append_assoc _ _ _).symm, ?_, ?_,
    (Noted.silent hscanned).trans hnoted, ?_⟩
  · rw [List.length_append]
    omega
  · rwa [List.append_assoc, ← List.append_assoc read, ← List.append_assoc]
  · intro front'
    have hread : Recites e b (front'.length + look) depth (front' ++ read) (x front'.length) u []
        (value front'.length u) := by
      intro v s hs hroom hdepth
      obtain ⟨t, n, hrun, ⟨-, -, rfl⟩, ht, hscanned⟩ := (hx front').complete u v s _ hs
        ⟨0, hu, rfl, rfl⟩ (fun n ⟨_, _, hn⟩ => by rw [hn]; exact hroom) hdepth
      exact ⟨t, hrun, ht, .silent hscanned⟩
    have hthen := hrecites front'
    rw [← List.append_assoc] at hthen
    exact hread.bind hthen

/-- A field records the code of its value, and its bytes tell the value. -/
theorem field {g : Field K α} {opens shut : Image → Prop} {fits : Bool → α → Prop}
    {code : α → Bytes} (hg : g.Lawful opens shut fits code)
    (hleast : ∀ a, fits b a → least ≤ (g.encode e a).length) :
    Portable e b look depth least read fun _ => g.read := by
  intro front rest s a t hs hx
  obtain ⟨hfits, h⟩ := hg.parsed hs.sound hx
  rw [hs.endian] at h
  rw [hs.evil] at hfits
  have hnoted : ∀ s t : State K, Scanned 0 (s.recorded (code a)) t → Noted (code a) s t := by
    intro s t hscanned
    have hboth := (Noted.coded s (code a)).trans (.silent hscanned)
    rwa [List.append_nil] at hboth
  obtain ⟨v, rfl, ht, hscanned⟩ := (hs.recorded (code a)).emit_reads h
  refine ⟨_, v, code a, rfl, hleast a hfits, ht, hnoted s t hscanned, ?_⟩
  intro front' v' s' hs' hroom _
  have hst := (hs'.stands_iff _).2 (List.prefix_append (g.encode e a) v')
  rw [← hs'.endian] at hst
  have hrun := hg.parses hs'.sound (by rw [hs'.evil]; exact hfits) hst hroom
  obtain ⟨t', h', ht', hscanned'⟩ := (hs'.recorded (code a)).emits
  rw [hs'.endian, bind_run h', pure_run] at hrun
  exact ⟨t', hrun, ht', hnoted s' t' hscanned'⟩

section Productions

variable [DecidableEq K]

theorem seq {g : Nat → Grammar K α} {f : Nat → α → Grammar K β}
    (hg : Portable e b look depth least read fun n => (g n).run)
    (hf : ∀ a u, least ≤ u.length → Portable e b look depth m (read ++ u) fun n => (f n a).run) :
    Portable e b look depth (least + m) read fun n => (g n >>= f n).run := by
  simp only [Grammar.run_bind]
  exact hg.bind hf

theorem discard {g : Grammar K α} (hg : Portable e b look depth least read fun _ => g.run) :
    Portable e b look depth least read fun _ => (Functor.discard g : Grammar K Unit).run := by
  simp only [Grammar.run_discard]
  exact hg.bind fun _ _ _ => Portable.pure ()

theorem uint (w : Nat) (h1 : 1 ≤ w) (h8 : w ≤ 8) :
    Portable e b look depth w read fun _ => (Grammar.request (.uint w) : Grammar K Nat).run := by
  rw [Grammar.run_request, Request.answer, readUInt_eq w h1 h8]
  exact field (Field.uint_lawful w h1 h8) fun v _ => Nat.le_of_eq (e.length_encode w v).symm

theorem uintKnown (w : Nat) (known : List Nat) (h1 : 1 ≤ w) (h8 : w ≤ 8) (hne : known ≠ [])
    (hlen : known.length ≤ 256) (hknown : ∀ v ∈ known, v < 256 ^ w) :
    Portable e b look depth w read fun _ =>
      (Grammar.request (.uintKnown w known) : Grammar K Nat).run := by
  rw [Grammar.run_request, Request.answer, readUIntKnown_eq w known h1 h8]
  exact field (Field.uintKnown_lawful w known h1 h8 hne hlen hknown) fun v _ =>
    Nat.le_of_eq (e.length_encode w v).symm

theorem bytesKnown (w : Nat) (known : List Bytes) (h1 : 1 ≤ w) (hne : known ≠ [])
    (hlen : known.length ≤ 256) (hknown : ∀ bs ∈ known, bs.length = w) :
    Portable e b look depth w read fun _ =>
      (Grammar.request (.bytesKnown w known) : Grammar K Bytes).run := by
  rw [Grammar.run_request, Request.answer, readBytesKnown_eq w known hknown]
  apply field (Field.bytesKnown_lawful w known h1 hne hlen hknown)
  rintro bs (hmem | ⟨-, hwide⟩)
  · exact Nat.le_of_eq (hknown bs hmem).symm
  · exact Nat.le_of_eq hwide.symm

theorem bytes (w : Nat) :
    Portable e b look depth w read fun _ =>
      (Grammar.request (.bytes w) : Grammar K Bytes).run := by
  rw [Grammar.run_request, Request.answer, readBytes_eq]
  exact field (Field.bytes_lawful w) fun _ hbs => Nat.le_of_eq hbs.symm

theorem string (w : Nat) :
    Portable e b look depth w read fun _ =>
      (Grammar.request (.string w) : Grammar K Bytes).run := by
  rw [Grammar.run_request, Request.answer, readString_eq]
  exact field (Field.string_text_lawful w) fun _ hbs => Nat.le_of_eq hbs.symm

theorem cstring (most : Nat) (hw : lengthWidth most ≤ 8) :
    Portable e b look depth 0 read fun _ =>
      (Grammar.request (.cstring most) : Grammar K Bytes).run := by
  rw [Grammar.run_request, Request.answer, readCString_eq]
  exact field (terminated_lawful most hw) fun _ _ => Nat.zero_le _

theorem tell {f : Nat → Nat → Grammar K α}
    (hf : Portable e b look depth least read fun n => (f n (n + read.length)).run) :
    Portable e b look depth least read fun n =>
      ((Grammar.request .tell : Grammar K Nat) >>= f n).run := by
  simp only [Grammar.run_bind]
  apply knowing (fun n => n + read.length) ?_ hf
  intro front rest s hs
  rw [Scans.tell rest s hs, List.length_append]

theorem checksum32 {front middle : Bytes} {f : Nat → Nat → Grammar K α}
    (hread : read = front ++ middle)
    (hf : Portable e b look depth least read fun n => (f n (crc32 middle).toNat).run) :
    Portable e b look depth least read fun n => ((Grammar.request
      (.checksum32 (n + front.length) (n + read.length)) : Grammar K Nat) >>= f n).run := by
  simp only [Grammar.run_bind]
  apply knowing (fun _ => (crc32 middle).toNat) ?_ hf
  intro before rest s hs
  have hpast : before ++ read = (before ++ front) ++ middle := by
    rw [hread, List.append_assoc]
  have hsum := Scans.checksum32 hpast rest s hs
  rwa [List.length_append, List.length_append] at hsum

theorem reserve {f : Nat → Reserved → Grammar K α} (w : Nat) (h1 : 1 ≤ w) (h8 : w ≤ 8)
    (hf : ∀ u : Bytes, u.length = w → Portable e b look depth m (read ++ u)
      fun n => (f n ⟨n + read.length, w, some (e.decode u)⟩).run) :
    Portable e b look depth (w + m) read fun n =>
      ((Grammar.request (.reserve w) : Grammar K Reserved) >>= f n).run := by
  simp only [Grammar.run_bind]
  apply silently (fun u => u.length = w)
    (fun n u => ⟨n + read.length, w, some (e.decode u)⟩) ?_ (fun u hu => Nat.le_of_eq hu.symm) hf
  intro front
  have hscans : Scans e b (front.length + look) depth (front ++ read)
      (Grammar.request (.reserve w) : Grammar K Reserved).run _ := Scans.reserve w h1 h8
  rwa [List.length_append] at hscans

/-- The field that is patched lies within `read`. -/
theorem patch {front middle back : Bytes} {w : Nat} {f : Nat → Unit → Grammar K α} (value : Nat)
    (hread : read = front ++ middle ++ back) (hw : middle.length = w)
    (hf : Portable e b look depth m read fun n => (f n ()).run) :
    Portable e b look depth m read fun n => ((Grammar.request (.patch
      ⟨n + front.length, w, some (e.decode middle)⟩ value) : Grammar K Unit) >>= f n).run := by
  have hscans : ∀ before : Bytes, Scans e b (before.length + look) depth (before ++ read)
      (Grammar.request (.patch ⟨before.length + front.length, w, some (e.decode middle)⟩ value) :
        Grammar K Unit).run
      fun u _ a n => (u = [] ∧ e.decode middle = value) ∧ a = () ∧ n = 0 := by
    intro before
    have hpast : before ++ read = (before ++ front) ++ middle ++ back := by
      rw [hread]
      simp only [List.append_assoc]
    have hscans : Scans e b (before.length + look) depth (before ++ read)
        (_ : Walker K Unit) _ := Scans.patch value hpast hw
    rw [List.length_append] at hscans
    apply hscans.describe
    · rintro u _ a n ⟨hu, hvalue, hn⟩
      exact ⟨⟨hu, hvalue⟩, rfl, hn⟩
    · rintro u _ a n ⟨⟨hu, hvalue⟩, -, hn⟩
      exact ⟨n, hu, hvalue, hn⟩
  have hthen : ∀ u : Bytes, u = [] ∧ e.decode middle = value →
      Portable e b look depth m (read ++ u) fun n => (f n ()).run := by
    rintro _ ⟨rfl, -⟩
    rwa [List.append_nil]
  simp only [Grammar.run_bind]
  have hpatched := silently (x := fun n => (Grammar.request (.patch ⟨n + front.length, w,
    some (e.decode middle)⟩ value) : Grammar K Unit).run)
    (f := fun n a => (f n a).run) (fun u => u = [] ∧ e.decode middle = value) (fun _ _ => ())
    hscans (fun _ _ => Nat.zero_le _) hthen
  rwa [Nat.zero_add] at hpatched

/-- A count that is derived from other fields takes decisions but no bytes. What it counts, and
`spare` bytes behind that, must fit into the rest. -/
theorem counted {f : Nat → Nat → Grammar K α} (v spare : Nat) (hv : v < 256 ^ 8)
    (hleast : v + spare ≤ least) (hf : Portable e b look depth least read fun n => (f n v).run) :
    Portable e b look depth least read fun n =>
      ((Grammar.request .remaining : Grammar K Nat) >>= fun room =>
        (Grammar.request (.count (room - spare) (some v)) : Grammar K Nat) >>= f n).run := by
  have hcount : ∀ n (rest : Bytes) (s : State K) (seen : Nat) (past : Bytes),
      Scanning e b seen past rest s →
      ((Grammar.request .remaining : Grammar K Nat) >>= fun room =>
        (Grammar.request (.count (room - spare) (some v)) : Grammar K Nat) >>= f n).run s =
      (decideCount (rest.length - spare) (some v) >>= fun c => (f n c).run) s := by
    intro n rest s seen past hs
    rw [Grammar.run_bind, bind_run (Scans.remaining rest s hs), Grammar.run_bind,
      Grammar.run_request]
    rfl
  have hcodec := fun most => count_codec (K := K) (T := True) most
  intro front rest s a t hs h
  dsimp only at h
  rw [hcount _ rest s _ _ hs] at h
  obtain ⟨c, s', h1, h2⟩ := bind_ok.1 h
  obtain ⟨-, hle, hdraw⟩ := decideCount_ok h1
  obtain ⟨rfl, rfl, -⟩ := (hcodec _).forced s v c s' ⟨hle v rfl, hv⟩ hdraw
  obtain ⟨u, w, d, rfl, hlong, ht, hnoted, hrecites⟩ := hf front rest _ a t (hs.recorded _) h2
  refine ⟨u, w, smallCode 8 c ++ d, rfl, hlong, ht, (Noted.coded s _).trans hnoted, ?_⟩
  intro front' v' s' hs' hroom hdepth
  rw [List.length_append] at hroom
  have hfits : c ≤ (u ++ v').length - spare := by
    rw [List.length_append]
    omega
  have hforce := (hcodec _).force s' c ⟨hfits, hv⟩ (by omega)
  obtain ⟨t', h', ht', hnoted'⟩ := hrecites front' v' _ (hs'.recorded (smallCode 8 c))
    (by rw [State.recorded_stream, Stream.recorded_position, Stream.recorded_capacity]; omega)
    hdepth
  refine ⟨t', ?_, ht', (Noted.coded s' _).trans hnoted'⟩
  dsimp only
  rw [hcount _ _ s' _ _ hs', bind_run ((decideCount_run (fun _ => by simp) ?_).trans hforce)]
  · exact h'
  · intro w hw
    cases hw
    exact hfits

/-- A check that `need` bytes are left, which the rule behind it reads anyway. -/
theorem guarded {g : Grammar K α} (need : Nat) (code : Int) (reason : String)
    (hneed : need ≤ least) (hg : Portable e b look depth least read fun _ => g.run) :
    Portable e b look depth least read fun _ =>
      ((Grammar.request .remaining : Grammar K Nat) >>= fun room =>
        if room < need then .stop code reason else g).run := by
  have hrun : ∀ (rest : Bytes) (s : State K) (seen : Nat) (past : Bytes),
      Scanning e b seen past rest s →
      ((Grammar.request .remaining : Grammar K Nat) >>= fun room =>
        if room < need then .stop code reason else g).run s =
      (if rest.length < need then .stop code reason else g : Grammar K α).run s := by
    intro rest s seen past hs
    rw [Grammar.run_bind, bind_run (Scans.remaining rest s hs)]
  intro front rest s a t hs h
  dsimp only at h
  rw [hrun rest s _ _ hs] at h
  split at h
  · exact absurd h (throw_not_ok _ _ _ _)
  · obtain ⟨u, v, d, hrest, hlong, ht, hnoted, hrecites⟩ := hg front rest s a t hs h
    refine ⟨u, v, d, hrest, hlong, ht, hnoted, ?_⟩
    intro front' v' s' hs' hroom hdepth
    obtain ⟨t', h', hthen⟩ := hrecites front' v' s' hs' hroom hdepth
    refine ⟨t', ?_, hthen⟩
    dsimp only
    rw [hrun _ s' _ _ hs', if_neg (by rw [List.length_append]; omega)]
    exact h'

theorem underEvil {body : Grammar K α} (allowed : Bool)
    (hb : Portable e allowed look depth least read fun _ => body.run) :
    Portable e b look depth least read fun _ => (Grammar.underEvil allowed body).run := by
  intro front rest s a t hs h
  obtain ⟨t', hx, rfl⟩ := underEvil_ok h
  obtain ⟨u, v, d, hrest, hlong, ht, hnoted, hrecites⟩ :=
    hb front rest _ a t' (hs.evilly allowed) hx
  exact ⟨u, v, d, hrest, hlong, ht.like rfl rfl rfl ht.endian hs.evil,
    ⟨hnoted.stream, hnoted.depth, hnoted.maxDepth⟩, fun front' => (hrecites front').underEvil⟩

theorem inScope {body : Grammar K α} (name : String) (kind : K)
    (hb : Portable e b look depth least read fun _ => body.run) :
    Portable e b look (depth + 1) least read fun _ => (Grammar.inScope name kind body).run := by
  intro front rest s a t hs h
  dsimp only at h
  rw [Grammar.run_inScope] at h
  obtain ⟨opened, s1, h1, h⟩ := bind_ok.1 h
  obtain ⟨c, s2, h2, h⟩ := bind_ok.1 h
  obtain ⟨_, s3, h3, h⟩ := bind_ok.1 h
  cases h
  obtain ⟨-, rfl⟩ := openScope_ok hs.sound.watches h1
  obtain ⟨u, v, d, hrest, hlong, ht, hnoted, hrecites⟩ := hb front rest _ a s2 (hs.tracking _) h2
  rw [closeScope_run opened ht.sound.watches] at h3
  cases h3
  exact ⟨u, v, d, hrest, hlong, ht.tracking _, hnoted.scoped, fun front' =>
    (hrecites front').inScope name kind⟩

/-- A look at the bytes that start `off` bytes ahead, which what follows reads. -/
theorem lookBytes {f : Nat → Bytes → Grammar K α} (off w : Nat) (known : List Bytes) (h1 : 1 ≤ w)
    (hne : known ≠ []) (hlen : known.length ≤ 256) (hknown : ∀ bs ∈ known, bs.length = w)
    (hlook : read.length + off + w ≤ look) (hleast : off + w ≤ least)
    (hf : ∀ a ∈ known, Portable e b look depth least read fun n => (f n a).run) :
    Portable e b look depth least read fun n => (Grammar.underEvil false
      (Grammar.request (.lookBytes off w known) : Grammar K Bytes) >>= f n).run := by
  intro front rest s c t hs h
  dsimp only at h
  rw [Grammar.run_bind] at h
  obtain ⟨a, s', hlooks, hthen⟩ := bind_ok.1 h
  obtain ⟨hmem, ha, hs', hnoted⟩ := hs.looked h1 hne hlen hknown
    (by rw [List.length_append]; omega) hlooks
  obtain ⟨u, v, d, rfl, hlong, ht, hnoted', hrecites⟩ := hf a hmem front rest s' c t hs' hthen
  refine ⟨u, v, knownCode known Alphabet.plain.stringCode a ++ d, rfl, hlong, ht,
    hnoted.trans hnoted', ?_⟩
  intro front' v' s1 hs1 hroom hdepth
  rw [List.length_append] at hroom
  have hwithin : ∀ v : Bytes, ((u ++ v).drop off).take w = (u.drop off).take w := by
    intro v
    rw [List.drop_append_of_le_length (by omega), List.take_append_of_le_length]
    rw [List.length_drop]
    omega
  have hsame : a = ((u ++ v').drop off).take w := by
    rw [hwithin, ← hwithin v, ← ha]
  obtain ⟨s2, hrun, hs2, hnoted2⟩ := hs1.looks h1 hne hlen hknown
    (by rw [List.length_append]; omega) hmem hsame (by omega)
  have hposition := hnoted2.position
  have hcapacity := hnoted2.capacity
  obtain ⟨t2, hthen2, ht2, hnoted3⟩ := hrecites front' v' s2 hs2 (by omega)
    (by rw [hnoted2.depth, hnoted2.maxDepth]; exact hdepth)
  refine ⟨t2, ?_, ht2, hnoted2.trans hnoted3⟩
  dsimp only
  rw [Grammar.run_bind, bind_run hrun]
  exact hthen2

omit [DecidableEq K] in
theorem settled (h : Portable e b look depth least [] x) (hlook : look ≤ least) :
    Portable e b 0 depth least [] x := by
  intro front rest s a t hs hx
  obtain ⟨u, v, d, hrest, hlong, ht, hnoted, hrecites⟩ := h front rest s a t
    (hs.weaken (by rw [List.append_nil]; omega)) hx
  have hforget : ∀ (front : Bytes) (v : Bytes) (t : State K),
      Scanning e b (front.length + look) (front ++ [] ++ u) v t →
      Scanning e b (front.length + 0) (front ++ [] ++ u) v t := by
    intro front v t ht
    apply ht.weaken
    rw [List.length_append, List.append_nil]
    omega
  refine ⟨u, v, d, hrest, hlong, hforget front v t ht, hnoted, ?_⟩
  intro front' v' s' hs' hroom hdepth
  obtain ⟨t', hx', ht', hnoted'⟩ := hrecites front' v' s'
    (hs'.weaken (by rw [List.append_nil]; omega)) hroom hdepth
  exact ⟨t', hx', hforget front' v' t' ht', hnoted'⟩

end Productions

end Portable

def Recited (e : Endian) (b : Bool) (depth : Nat) (x : Walker K α) (u d : Bytes) (a : α) : Prop :=
  ∀ past, Recites e b 0 depth past x u d a

/-- What a portable action reads somewhere it reads anywhere. -/
theorem Portable.recited {x : Walker K α} {past rest : Bytes} {s t : State K} {a : α}
    (h : Portable e b 0 depth least [] fun _ => x) (hs : Scanning e b 0 past rest s)
    (hx : x s = .ok a t) :
    ∃ u v d, rest = u ++ v ∧ least ≤ u.length ∧ Scanning e b 0 (past ++ u) v t ∧ Noted d s t ∧
      Recited e b depth x u d a := by
  have hnear : ∀ (past u v : Bytes) (t : State K), Scanning e b (past.length + 0) (past ++ u) v t ↔
      Scanning e b 0 (past ++ u) v t := by
    intro past u v t
    constructor <;> intro ht <;> apply ht.weaken <;> rw [List.length_append] <;> omega
  have hstart := (hnear past [] rest s).2 (by rwa [List.append_nil])
  obtain ⟨u, v, d, hrest, hlong, ht, hnoted, hrecites⟩ := h past rest s a t hstart hx
  rw [List.append_nil] at ht
  refine ⟨u, v, d, hrest, hlong, (hnear past u v t).1 ht, hnoted, ?_⟩
  intro past' v' s' hs' hroom hdepth
  have hstart' := (hnear past' [] _ s').2 (by rwa [List.append_nil])
  obtain ⟨t', hx', ht', hnoted'⟩ := hrecites past' v' s' hstart' hroom hdepth
  rw [List.append_nil] at ht'
  exact ⟨t', hx', (hnear past' u v' t').1 ht', hnoted'⟩

theorem Scanning.start (e : Endian) (limits : Limits) (input : Bytes) :
    Scanning e limits.allowEvil 0 [] input
      { (State.parsing limits input : State K) with endian := e } := by
  have hat := State.parsing_at (K := K) limits input
  refine ⟨hat.sound.like rfl rfl rfl, rfl, rfl, rfl, rfl, Nat.le_refl _, Nat.le_refl _, ?_⟩
  intro i hi
  exact absurd hi (Nat.not_lt_zero i)

namespace Recited

variable {x : Walker K α} {u v c d : Bytes} {a : α}

/-- The bytes ahead tell how many of them are read, and with what decisions. -/
theorem unique {u' v' d' : Bytes} {a' : α} (h : Recited e b depth x u d a)
    (h' : Recited e b depth x u' d' a') (hsame : u ++ v = u' ++ v') :
    u = u' ∧ d = d' ∧ a = a' := by
  let limits : Limits :=
    { allowEvil := b, maxDepth := depth, streamCapacity := d.length + d'.length }
  have hs : Scanning e b 0 [] (u ++ v)
      { (State.parsing limits (u ++ v) : State K) with endian := e } :=
    Scanning.start e limits (u ++ v)
  obtain ⟨t, hx, ht, hnoted⟩ := h [] v _ hs (show 0 + d.length ≤ d.length + d'.length by omega)
    (Nat.le_of_eq (Nat.zero_add depth))
  rw [hsame] at hs hx hnoted
  obtain ⟨t', hx', ht', hnoted'⟩ := h' [] v' _ hs
    (show 0 + d'.length ≤ d.length + d'.length by omega) (Nat.le_of_eq (Nat.zero_add depth))
  rw [hx] at hx'
  cases hx'
  refine ⟨?_, ?_, rfl⟩
  · have hcursor := ht.cursor.symm.trans ht'.cursor
    exact (List.append_inj hsame hcursor).1
  · have hconsumed := hnoted.consumed.symm.trans hnoted'.consumed
    exact List.append_cancel_left hconsumed

theorem bind {f : α → Walker K β} {r : β} (h : Recited e b depth x u c a)
    (hf : Recited e b depth (f a) v d r) : Recited e b depth (x >>= f) (u ++ v) (c ++ d) r :=
  fun past => (h past).bind (hf _)

section Productions

variable [DecidableEq K]

theorem seq {g : Grammar K α} {f : α → Grammar K β} {r : β} (h : Recited e b depth g.run u c a)
    (hf : Recited e b depth (f a).run v d r) :
    Recited e b depth (g >>= f).run (u ++ v) (c ++ d) r := by
  rw [Grammar.run_bind]
  exact h.bind hf

theorem inScope {body : Grammar K α} (name : String) (kind : K)
    (h : Recited e b depth body.run u d a) :
    Recited e b (depth + 1) (Grammar.inScope name kind body).run u d a :=
  fun past => (h past).inScope name kind

end Productions

end Recited

inductive Verses (e : Endian) (b : Bool) (depth : Nat) (x : Walker K (Unit ⊕ β)) :
    Bytes → Bytes → β → Prop where
  | last {u d : Bytes} {r : β} (h : Recited e b depth x u d (.inr r)) : Verses e b depth x u d r
  | again {u v c d : Bytes} {r : β} (h : Recited e b depth x u c (.inl ())) (hc : c ≠ [])
      (rest : Verses e b depth x v d r) : Verses e b depth x (u ++ v) (c ++ d) r

theorem Verses.iterate {step : Unit → Walker K (Unit ⊕ β)} {u d : Bytes} {r : β}
    (h : Verses e b depth (step ()) u d r) (past v : Bytes) (s : State K) (left : Nat)
    (hs : Scanning e b 0 past (u ++ v) s)
    (hroom : s.stream.position + d.length ≤ s.stream.capacity)
    (hdepth : s.tracker.depth + depth ≤ s.tracker.maxDepth)
    (hleft : s.stream.capacity < s.stream.position + left) :
    ∃ t, Grammar.iterate step left () s = .ok r t ∧ Scanning e b 0 (past ++ u) v t ∧
      Noted d s t := by
  have hidle : Grammar.idleRounds = (Grammar.idleRounds - 1) + 1 := by decide
  obtain ⟨left, rfl⟩ : ∃ k, left = k + 1 := ⟨left - 1, by omega⟩
  induction h generalizing past s left with
  | last h =>
    obtain ⟨t, hx, ht, hnoted⟩ := h past v s hs hroom hdepth
    refine ⟨t, ?_, ht, hnoted⟩
    apply iterate_inr
    rw [hidle]
    exact settle_inr hx
  | @again u w c d r h hc hrest ih =>
    rw [List.append_assoc] at hs
    rw [List.length_append] at hroom
    have hspent : 0 < c.length := List.length_pos_iff.2 hc
    obtain ⟨t, hx, ht, hnoted⟩ := h past (w ++ v) s hs (by omega) hdepth
    have hposition := hnoted.position
    have hcapacity := hnoted.capacity
    have hround : Grammar.settle step s.stream.position Grammar.idleRounds () s =
        .ok (.inl ()) t := by
      rw [hidle, settle_inl hx, if_pos (by omega)]
    obtain ⟨left, rfl⟩ : ∃ k, left = k + 1 := ⟨left - 1, by omega⟩
    obtain ⟨t', hx', ht', hnoted'⟩ := ih _ t ht (by omega)
      (by rw [hnoted.depth, hnoted.maxDepth]; exact hdepth) left (by omega)
    refine ⟨t', (iterate_inl hround).trans hx', ?_, hnoted.trans hnoted'⟩
    rwa [← List.append_assoc]

section Files

variable [DecidableEq K]

theorem Recited.repeatFrom {body : Unit → Grammar K (Unit ⊕ β)} {u d : Bytes} {r : β}
    (h : Verses e b depth (body ()).run u d r) :
    Recited e b depth (Grammar.repeatFrom () body).run u d r := by
  intro past v s hs hroom hdepth
  rw [Grammar.run_repeatFrom, get_bind]
  exact Verses.iterate h past v s _ hs hroom hdepth (by omega)

theorem Scanning.parses {body : Grammar K Unit} {limits : Limits} {input d : Bytes} {t : State K}
    (h : body.run { (State.parsing limits input : State K) with endian := e } = .ok () t)
    (ht : Scanning e b 0 input [] t)
    (hnoted : Noted d { (State.parsing limits input : State K) with endian := e } t) :
    ∃ w, (Grammar.request (.setEndian e) >>= fun _ => body).parse limits input = .ok w ∧
      w.decisions = d := by
  have hfin : t.finish = .ok (t.ended, t.watches) := by
    rw [State.finish_iff, ht.sound.input, if_pos rfl, ht.bytes, ht.forgets (Nat.zero_le _)]
    simp
  have hrun : (Grammar.request (.setEndian e) >>= fun _ => body).run (State.parsing limits input) =
      .ok () t := by
    rw [Grammar.run_bind]
    exact h
  refine ⟨t.ended, ?_, hnoted.consumed⟩
  rw [Grammar.parse_run, hrun]
  simp only [Grammar.conclude, hfin, Except.map]

/-- What a grammar recites as a whole it parses, if there is room for the decisions. -/
theorem Recited.parses {body : Grammar K Unit} {limits : Limits} {input d : Bytes}
    (h : Recited e limits.allowEvil depth body.run input d ())
    (hstream : d.length ≤ limits.streamCapacity) (hdepth : depth ≤ limits.maxDepth) :
    ∃ w, (Grammar.request (.setEndian e) >>= fun _ => body).parse limits input = .ok w ∧
      w.decisions = d := by
  have hstart : Scanning e limits.allowEvil 0 [] (input ++ [])
      { (State.parsing limits input : State K) with endian := e } := by
    rw [List.append_nil]
    exact Scanning.start e limits input
  obtain ⟨t, hx, ht, hnoted⟩ := h [] [] _ hstart
    (show 0 + d.length ≤ limits.streamCapacity by omega)
    (show 0 + depth ≤ limits.maxDepth by omega)
  exact Scanning.parses hx ht hnoted

end Files

end DecisionWalk
