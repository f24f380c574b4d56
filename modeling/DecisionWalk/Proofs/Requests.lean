import DecisionWalk.Proofs.Following

/-!
# Following single requests

One rule for each request that asks the same of both walks: what outline it
needs, and what outline it leaves.
-/

set_option autoImplicit false

namespace DecisionWalk

open Image Walker Outline

variable {K α : Type} {k : Link} {hole : Span} {n : Nat} {o o' : Outline}

def Link.EndsAt (ends : Bool) (c : Nat) : Link → Prop
  | .replay _ => True
  | .reparse input => ends = true ↔ input.size ≤ c

def Link.Whole (s : State K) : Link → Prop
  | .replay _ => True
  | .reparse input => input.size ≤ s.image.size

theorem endOfFile_run {s : State K} {known : Option Bool} (threshold : Nat)
    (h : knownEnd s = .ok known s) :
    Walker.endOfFile threshold s = (do
      let ends ← endCoin threshold known
      markLookahead s.stream.position
      pure ends : Walker K Bool) s := by
  have heq : Walker.endOfFile threshold s = (knownEnd >>= fun forced =>
      endCoin threshold forced >>= fun ends => markLookahead s.stream.position >>= fun _ =>
        pure ends : Walker K Bool) s := by
    simp only [Walker.endOfFile, endCoin, bind_assoc, pure_bind]
    rfl
  rw [heq, bind_run h]

theorem knownEnd_edge {m : Mode} {c : Nat} {s : State K} (hs : Sound m s)
    (hcur : s.image.cursor = c) (hsize : s.image.size = c) :
    knownEnd s = .ok (if m = .parse then some (decide (s.image.limit ≤ c)) else none) s := by
  cases m with
  | parse => simp only [knownEnd, hs.mode, hcur, if_true]
  | generate =>
    simp only [knownEnd, hs.mode, fixedFrom, hcur, hsize, gt_iff_lt, Nat.lt_irrefl, decide_false,
      Bool.false_eq_true, if_false, reduceCtorEq]

def State.back (t s : State K) : State K :=
  { t with
    image := t.image.moveTo s.image.cursor
    tracker := t.tracker.lookahead ⟨s.stream.position, t.stream.position⟩ }

section Ahead

variable {x : Walker K α} {off : Nat} {a : α} {l g t u : State K}

theorem ahead_run (h : x { l with image := l.image.moveTo (l.image.cursor + off) } = .ok a t) :
    ahead off x l = .ok a (t.back l) := by
  simp only [ahead, h, State.back]

theorem ahead_ok (h : ahead off x l = .ok a t) :
    ∃ u, x { l with image := l.image.moveTo (l.image.cursor + off) } = .ok a u ∧ t = u.back l := by
  cases hx : x { l with image := l.image.moveTo (l.image.cursor + off) } with
  | error e u =>
    rw [ahead, hx] at h
    cases h
  | ok b u =>
    rw [ahead_run hx] at h
    cases h
    exact ⟨u, rfl, rfl⟩

/-- Both walks return from a look that touched the same bytes. -/
theorem Pairs.back {span : Span} {e d : Bytes} (hp : Pairs k hole n l g)
    (hp' : Pairs k hole n t u) (ht : t.stream = l.stream.recorded e)
    (hu : u.stream = g.stream.recorded d) (htt : t.tracker = l.tracker.touch span)
    (hut : u.tracker = g.tracker.touch span) : Pairs k hole n (t.back l) (u.back g) := by
  have hcur := hp.agree.cursor
  have htapes := hp'.tapes
  rw [ht, hu] at htapes
  have hbooks := (hp.books.touch span).lookahead hp.tapes htapes
  rw [← ht, ← hu, ← htt, ← hut] at hbooks
  refine ⟨(hp'.sound.moveTo g.image.cursor).like rfl rfl rfl, ?_, ?_, hp'.tapes, hbooks, hp'.endian,
    hp'.evil, hp'.log⟩
  · show Agree hole (t.image.moveTo l.image.cursor) (u.image.moveTo g.image.cursor)
    rw [← hcur]
    exact hp'.agree.moved _
  · show k.Room (t.image.moveTo l.image.cursor) (u.image.moveTo g.image.cursor)
    rw [← hcur]
    exact hp'.room.moved _

end Ahead

theorem fixedSlice_run {s : State K} {start stop : Nat} (hle : start ≤ stop)
    (hr : s.image.region start (stop - start) = .fixed) (hin : stop ≤ s.image.bytes.size) :
    Walker.fixedSlice start stop s = .ok (s.image.window start (stop - start)) s := by
  have hs := slice_eq s.image start (stop - start) (by omega)
  rw [Nat.add_sub_cancel' hle] at hs
  simp only [Walker.fixedSlice, hr, hs, ne_eq, not_true_eq_false, if_false]

theorem fixedSlice_ok {s t : State K} {start stop : Nat} {bs : Bytes}
    (h : Walker.fixedSlice start stop s = .ok bs t) :
    start ≤ stop ∧ s.image.region start (stop - start) = .fixed ∧ stop ≤ s.image.bytes.size ∧
      t = s ∧ bs = s.image.window start (stop - start) := by
  by_cases hr : s.image.region start (stop - start) = .fixed
  · by_cases hin : start ≤ stop ∧ stop ≤ s.image.bytes.size
    · rw [fixedSlice_run hin.1 hr hin.2] at h
      cases h
      exact ⟨hin.1, hr, hin.2, rfl, rfl⟩
    · simp only [Walker.fixedSlice, hr, slice?, if_neg hin, ne_eq, not_true_eq_false,
        if_false] at h
      exact absurd h (violation_not_ok _ _ _ _)
  · simp only [Walker.fixedSlice, hr, ne_eq, not_false_eq_true, if_true] at h
    exact absurd h (violation_not_ok _ _ _ _)

theorem Agree.window {a b : Image} {p w : Nat} (h : Agree hole a b) (hp : hole.stop ≤ p)
    (hfix : ∀ j, j < w → a.fixedAt (p + j) = true) (ha : p + w ≤ a.bytes.size)
    (hb : p + w ≤ b.bytes.size) : a.window p w = b.window p w := by
  apply List.ext_getElem?
  intro j
  by_cases hj : j < w
  · rw [window_get _ _ _ j ha hj, window_get _ _ _ j hb hj]
    congr 1
    apply h.byteAt _ (hfix j hj)
    intro hh
    have := hh.2
    omega
  · rw [List.getElem?_eq_none (by rw [window_length _ _ _ ha]; omega),
      List.getElem?_eq_none (by rw [window_length _ _ _ hb]; omega)]

/-- Fixed bytes behind the hole are the same in both images. -/
theorem Agree.fixedSlice {l l' g : State K} {start stop : Nat} {bs : Bytes}
    (ha : Agree hole l.image g.image) (hstart : hole.stop ≤ start)
    (hstop : stop ≤ g.image.bytes.size) (h : Walker.fixedSlice start stop l = .ok bs l') :
    Walker.fixedSlice start stop g = .ok bs g := by
  obtain ⟨hle, hr, hin, -, rfl⟩ := fixedSlice_ok h
  have hfix := fixed_of_region _ _ _ hr
  have hgr : g.image.region start (stop - start) = .fixed := by
    apply region_fixed
    intro j hj
    rw [← ha.fixedAt]
    exact hfix j hj
  rw [fixedSlice_run hle hgr hstop, ha.window hstart hfix (by omega) (by omega)]

namespace Follows

theorem field {f : Field K α} {opens shut : Image → Prop} {fits : Bool → α → Prop}
    {code : α → Bytes} {next : α → Outline} (hf : f.Lawful opens shut fits code)
    (hat : ∀ im, o.Shows im → opens im ∨ shut im)
    (hnext : ∀ b e v, fits b v → Reads o (f.encode e v).length (next v)) :
    Follows k hole n o f.read (fun v o'' => o'' = next v) anyEnd := by
  intro l v l' hl h
  have hcur := hl.shows.cursor
  have hbehind := hl.behind
  obtain ⟨e, he, hs', hg, hv, hfollow⟩ :=
    Pairs.reads hf hl.sound (hat _ hl.shows) (by omega : hole.stop ≤ l.image.cursor) h
  have hreads := hnext _ l.endian v hv
  have hmoved := hreads.cursor
  refine ⟨next v, rfl, ⟨hs', hreads.shows hl.shows he.writes, by omega⟩, hg, ?_⟩
  intro g hp hin _
  obtain ⟨d, g', hrun, heg, hp', hed⟩ := hfollow g n hp hin
  refine ⟨g', hrun, hp', ⟨⟨d, ?_⟩, ?_⟩⟩
  · rw [heg.rest]
    rfl
  · rw [he.rest, heg.rest]
    simp only [State.touching, State.recorded_stream, Stream.recorded_position]
    rw [← List.length_eq_zero_iff, ← List.length_eq_zero_iff] at hed
    omega

theorem width {f : Field K α} {fits : Bool → α → Prop} {code : α → Bytes} {w : Nat}
    (hf : f.Lawful (Field.Opens w) (Field.Shut w) fits code)
    (hlen : ∀ b e v, fits b v → (f.encode e v).length = w) (hr : Reads o w o') :
    Follows k hole n o f.read (fun _ o'' => o'' = o') anyEnd := by
  apply field hf
  · intro im him
    exact hr.opens_or_shut him
  · intro b e v hv
    rw [hlen b e v hv]
    exact hr

/-- A look at `w` bytes, `off` bytes ahead of the edge, leaves them fixed there. -/
theorem looking {f : Field K α} {fits : Bool → α → Prop} {code : α → Bytes} {c off w : Nat}
    (hf : f.Lawful (Field.Opens w) (Field.Shut w) fits code) (hw : w ≠ 0)
    (hlen : ∀ b e v, fits b v → (f.encode e v).length = w) :
    Follows k hole n (edge c) (ahead off f.read) (fun _ o'' => o'' = ⟨c, off, w⟩) anyEnd := by
  intro l v l' hl h
  have hcur : l.image.cursor = c := hl.shows.cursor
  have hsize : l.image.size = c := hl.shows.size
  have hbehind : hole.stop ≤ c := hl.behind
  have hfixed := hl.shows.fixedAt
  simp only [edge] at hfixed
  obtain ⟨t, hx, rfl⟩ := ahead_ok h
  have hopen : Field.Opens w (l.image.moveTo (l.image.cursor + off)) := by
    refine ⟨hw, ?_⟩
    intro j hj
    rw [Bool.eq_false_iff]
    intro hfix
    have := (hfixed (l.image.cursor + off + j)).1 hfix
    omega
  obtain ⟨e, he, hs', hg, hv, hfollow⟩ := Pairs.reads hf (hl.sound.moveTo _)
    (Or.inl hopen) (show hole.stop ≤ l.image.cursor + off by omega) hx
  have hbs : (f.encode l.endian v).length = w := hlen _ l.endian _ hv
  have hstream : t.stream = l.stream.recorded e := by
    rw [he.rest]
    rfl
  have hshows : Outline.Shows ⟨c, off, w⟩ (t.image.moveTo l.image.cursor) := by
    have hwr := he.writes
    refine ⟨hcur, ?_, ?_⟩
    · rw [moveTo_size, hwr.size, if_neg hw, hbs]
      simp only [State.recorded_image, moveTo_size, moveTo_cursor]
      omega
    · intro i
      rw [moveTo_fixedAt, hwr.fixedAt, Bool.or_eq_true, decide_eq_true_eq, hbs]
      simp only [State.recorded_image, moveTo_fixedAt, moveTo_cursor, hfixed]
      omega
  refine ⟨⟨c, off, w⟩, rfl, ⟨(hs'.moveTo l.image.cursor).like rfl rfl rfl, hshows, hbehind⟩,
    ⟨hg.mode, hg.limit, hg.input, ⟨e, hstream⟩, ?_, hg.endian, hg.size, hg.keeps⟩, ?_⟩
  · exact (Tracker.lookahead_depth _ _).trans hg.depth
  · intro g hp hin _
    have hcg := hp.agree.cursor
    obtain ⟨d, g1, hrun, heg, hp1, hed⟩ := hfollow _ n (hp.moved _) ⟨hin.1, hin.2.moved⟩
    have hgstream : g1.stream = g.stream.recorded d := by
      rw [heg.rest]
      rfl
    have htouch : t.tracker = l.tracker.touch ⟨l.image.cursor + off, l.image.cursor + off + w⟩ ∧
        g1.tracker = g.tracker.touch ⟨l.image.cursor + off, l.image.cursor + off + w⟩ := by
      rw [he.rest, heg.rest, ← hbs]
      exact ⟨rfl, rfl⟩
    refine ⟨g1.back g, ahead_run (hcg ▸ hrun), hp.back hp1 hstream hgstream htouch.1 htouch.2,
      ⟨⟨d, hgstream⟩, ?_⟩⟩
    show t.stream.position = _ ↔ g1.stream.position = _
    rw [hstream, hgstream, Stream.recorded_position, Stream.recorded_position]
    rw [← List.length_eq_zero_iff, ← List.length_eq_zero_iff] at hed
    omega

theorem endOfFile (c threshold : Nat) (h0 : 0 < threshold) (h255 : threshold ≤ 255) :
    Follows k hole n (edge c) (Walker.endOfFile (K := K) threshold)
      (fun _ o'' => o'' = edge c) (fun ends _ => k.EndsAt ends c) := by
  have hcodec := endCoin_codec (K := K) (T := True) threshold h0 h255
  intro l b l' hl h
  have hcur : l.image.cursor = c := hl.shows.cursor
  have hsize : l.image.size = c := hl.shows.size
  rw [endOfFile_run threshold (knownEnd_edge hl.sound hcur hsize)] at h
  obtain ⟨b', m, h1, h2⟩ := bind_ok.1 h
  cases h2
  obtain ⟨-, -, e, rfl⟩ := hcodec.ran h1 fun _ _ => trivial
  refine ⟨edge c, rfl, ⟨hl.sound.like rfl rfl rfl, hl.shows, hl.behind⟩,
    ⟨rfl, rfl, fun _ => rfl, ⟨e, rfl⟩, Tracker.lookahead_depth _ _, fun _ => rfl, Nat.le_refl _,
      fun _ hi => ⟨hi, fun _ => rfl⟩⟩, ?_⟩
  intro g hp hin hend
  have hgcur : g.image.cursor = c := hp.agree.cursor.symm.trans hcur
  have hgk := knownEnd_edge hp.sound hgcur (hp.agree.size.symm.trans hsize)
  have hq : (if k.follower = .parse then some (decide (g.image.limit ≤ c)) else none) = some b ∨
      (if k.follower = .parse then some (decide (g.image.limit ≤ c)) else none) = none ∧
        k.follower = .generate := by
    cases k with
    | replay decisions => exact Or.inr ⟨rfl, rfl⟩
    | reparse input =>
      left
      have hlim : g.image.limit = input.size := by rw [hp.sound.limit_parse, hp.room.1]
      have hb : (b = true ↔ input.size ≤ c) := hend
      have hdec : decide (input.size ≤ c) = b := by
        rw [Bool.eq_iff_iff, decide_eq_true_eq]
        exact hb.symm
      rw [hlim, hdec]
      rfl
  obtain ⟨d, hd, htapes, hed⟩ := k.draws hcodec hcodec hp.tapes h1 (fun _ _ => trivial)
    (fun hm => by rw [if_pos hm]; exact Option.some_ne_none _) trivial hq hin.1
  refine ⟨{ g.recorded d with
    tracker := g.tracker.lookahead ⟨g.stream.position, (g.recorded d).stream.position⟩ },
    ?_, ?_, ?_⟩
  · rw [endOfFile_run threshold hgk, bind_run hd]
    rfl
  · exact ⟨hp.sound.like rfl rfl rfl, hp.agree, hp.room, htapes, hp.books.lookahead hp.tapes htapes,
      hp.endian, hp.evil, hp.log⟩
  · refine ⟨⟨d, rfl⟩, hed.trans ?_⟩
    simp

theorem fixedSlice (start stop : Nat) (hstart : hole.stop ≤ start) (hstop : stop ≤ o.cursor) :
    Follows k hole n o (Walker.fixedSlice (K := K) start stop) (fun _ o'' => o'' = o) anyEnd := by
  intro l bs l' hl h
  have hsize := hl.shows.cursor_le
  obtain ⟨-, -, -, rfl, -⟩ := fixedSlice_ok h
  refine ⟨o, rfl, hl, Grows.refl hole _, ?_⟩
  intro g hp _ _
  have hgin : stop ≤ g.image.bytes.size := by
    have h1 := hp.sound.size_le
    have h2 := hp.agree.size
    omega
  exact ⟨g, hp.agree.fixedSlice hstart hgin h, hp, Steps.refl _ g⟩

/-- A check that `need` bytes are left is passed by both walks when the rest reads that many. -/
theorem guarded (need : Nat) {next : Nat → Walker K α} {body : Walker K α}
    {post : α → Outline → Prop} {ends : α → State K → Prop}
    (hfail : ∀ room, room < need → ∀ s t a, next room s ≠ .ok a t)
    (hnext : ∀ room, need ≤ room → next room = body)
    (hb : Follows k hole n o body post ends)
    (hpost : ∀ a o', post a o' → o.cursor + need ≤ o'.cursor) :
    Follows k hole n o (Walker.remaining >>= next) post ends := by
  intro l a l' hl h
  have hrun : next l.remaining l = .ok a l' := h
  have hroom : need ≤ l.remaining := by
    by_cases hr : l.remaining < need
    · exact absurd hrun (hfail _ hr l l' a)
    · omega
  rw [hnext _ hroom] at hrun
  obtain ⟨o', ha, hl', hg, hfollow⟩ := hb l a l' hl hrun
  refine ⟨o', ha, hl', hg, ?_⟩
  intro g hp hin hend
  have hroom' : need ≤ g.remaining := by
    have h1 := hpost a o' ha
    have h2 := hl'.shows.cursor_le
    have h3 := hl.shows.cursor
    have h4 := hp.agree.cursor
    rw [State.remaining] at hroom ⊢
    cases k with
    | replay decisions =>
      have h5 : l.image.limit ≤ g.image.limit := hp.room
      omega
    | reparse input =>
      have h5 : l'.image.size ≤ input.size := hin.2.1
      have h6 : g.image.limit = input.size := by
        rw [hp.sound.limit_parse, hp.room.1]
      omega
  obtain ⟨g', hrun', hp', hst⟩ := hfollow g hp hin hend
  refine ⟨g', ?_, hp', hst⟩
  show next g.remaining g = _
  rw [hnext _ hroom', hrun']

theorem fillGap (c m : Nat) :
    Follows k hole n (edge c) (Walker.fillGap (K := K) m)
      (fun _ o'' => o'' = edge (c + m)) anyEnd := by
  induction m generalizing c with
  | zero => exact done rfl
  | succ m ih =>
    rw [Walker.fillGap, readUIntFull_eq 1 (by decide) (by decide)]
    apply (width (Field.uintFull_lawful 1 (by decide))
      (fun _ e v _ => Endian.length_encode e 1 v) (Reads.fresh c 1)).bind
    rintro _ _ rfl
    have h := ih (c + 1)
    rw [show c + 1 + m = c + (m + 1) by omega] at h
    exact h

theorem here (p : Nat) (ho : o.cursor = p) :
    Follows k hole n o (Walker.moveTo (K := K) p) (fun _ o'' => o'' = o) anyEnd := by
  have hrun : ∀ s : State K, s.image.cursor = p → Walker.moveTo p s = .ok () s := by
    rintro s rfl
    rfl
  intro l a l' hl h
  have hcur := hl.shows.cursor.trans ho
  rw [hrun l hcur] at h
  cases h
  refine ⟨o, rfl, hl, Grows.refl hole _, ?_⟩
  intro g hp _ _
  exact ⟨g, hrun g (hp.agree.cursor.symm.trans hcur), hp, Steps.refl _ g⟩

/-- At the edge two actions only need to agree on states whose file ends at the cursor. -/
theorem atEdge {c : Nat} {x y : Walker K α} {post : α → Outline → Prop}
    {ends : α → State K → Prop} (hy : Follows k hole n (edge c) y post ends)
    (hxy : ∀ s : State K, s.image.cursor = c → s.image.size = c → c ≤ s.image.limit →
      ∀ a t, x s = .ok a t ↔ y s = .ok a t) :
    Follows k hole n (edge c) x post ends := by
  intro l a l' hl h
  have hcur : l.image.cursor = c := hl.shows.cursor
  have hsize : l.image.size = c := hl.shows.size
  rw [hxy l hcur hsize (hsize ▸ hl.sound.size_limit)] at h
  obtain ⟨o', ha, hl', hg, hfollow⟩ := hy l a l' hl h
  refine ⟨o', ha, hl', hg, ?_⟩
  intro g hp hin hend
  obtain ⟨g', hrun, hp', hst⟩ := hfollow g hp hin hend
  have hcur' := hp.agree.cursor.symm.trans hcur
  have hsize' := hp.agree.size.symm.trans hsize
  exact ⟨g', (hxy g hcur' hsize' (hsize' ▸ hp.sound.size_limit) a g').2 hrun, hp', hst⟩

theorem seek_past {s : State K} {p : Nat} (h : s.image.limit < p) (t : State K) (u : Unit) :
    seek p s ≠ .ok u t := by
  intro hx
  rw [seek, get_bind, if_pos h] at hx
  cases hm : s.mode with
  | parse =>
    rw [hm] at hx
    obtain ⟨_, _, h1, -⟩ := bind_ok.1 hx
    exact violation_not_ok _ _ _ _ h1
  | generate =>
    rw [hm] at hx
    obtain ⟨_, _, h1, -⟩ := bind_ok.1 hx
    exact throw_not_ok _ _ _ _ h1

theorem seek_edge {s : State K} {m : Nat} (hsize : s.image.size = s.image.cursor)
    (hroom : s.image.cursor + m ≤ s.image.limit) :
    seek (s.image.cursor + m) s =
      (Walker.fillGap m >>= fun _ => Walker.moveTo (s.image.cursor + m)) s := by
  rw [seek, get_bind, if_neg (by omega)]
  cases m with
  | zero =>
    rw [if_neg (by omega)]
    rfl
  | succ m =>
    rw [if_pos (by omega), hsize, Nat.add_sub_cancel_left]
    rfl

theorem skip (c m : Nat) :
    Follows k hole n (edge c) (Walker.skip (K := K) m)
      (fun _ o'' => o'' = edge (c + m)) anyEnd := by
  have hguard : Follows k hole n (edge c)
      (Walker.remaining >>= fun room => if room < m then throw (.defect .stalled)
        else Walker.fillGap m >>= fun _ => Walker.moveTo (c + m) : Walker K Unit)
      (fun _ o'' => o'' = edge (c + m)) anyEnd := by
    apply guarded m
    · intro room hroom s t u
      rw [if_pos hroom]
      exact throw_not_ok _ _ _ _
    · intro room hroom
      rw [if_neg (by omega)]
    · apply (fillGap c m).bind
      rintro _ _ rfl
      exact here (c + m) rfl
    · rintro _ _ rfl
      exact Nat.le_refl _
  apply atEdge hguard
  rintro s rfl hsize hlim a t
  show seek (s.image.cursor + m) s = .ok a t ↔
    (if s.remaining < m then throw (.defect .stalled)
      else Walker.fillGap m >>= fun _ => Walker.moveTo (s.image.cursor + m) :
        Walker K Unit) s = .ok a t
  have hrem : s.remaining = s.image.limit - s.image.cursor := rfl
  by_cases hroom : s.remaining < m
  · rw [if_pos hroom]
    exact iff_of_false (seek_past (by omega) t a) (throw_not_ok _ _ _ _)
  · rw [if_neg hroom, seek_edge hsize (by omega)]

variable [DecidableEq K]

theorem checksum32 (start stop : Nat) (hstart : hole.stop ≤ start) (hstop : stop ≤ o.cursor) :
    Follows k hole n o (Grammar.request (.checksum32 start stop) : Grammar K Nat).run
      (fun a o'' => a < 256 ^ 4 ∧ o'' = o) anyEnd := by
  rw [Grammar.run_request, Request.answer, Walker.checksum32]
  apply (fixedSlice start stop hstart hstop).bind
  intro bs o'' h
  exact done ⟨(crc32 bs).toNat_lt, h⟩

theorem checksum16 (start stop : Nat) (hstart : hole.stop ≤ start) (hstop : stop ≤ o.cursor) :
    Follows k hole n o (Grammar.request (.checksum16 start stop) : Grammar K Nat).run
      (fun a o'' => a < 256 ^ 2 ∧ o'' = o) anyEnd := by
  rw [Grammar.run_request, Request.answer, Walker.checksum16]
  apply (fixedSlice start stop hstart hstop).bind
  intro bs o'' h
  exact done ⟨(crc16 bs).toNat_lt, h⟩

theorem uint (w : Nat) (h1 : 1 ≤ w) (h8 : w ≤ 8) (hr : Reads o w o') :
    Follows k hole n o (Grammar.request (.uint w) : Grammar K Nat).run
      (fun _ o'' => o'' = o') anyEnd := by
  rw [Grammar.run_request, Request.answer, readUInt_eq w h1 h8]
  exact width (Field.uint_lawful w h1 h8) (fun _ e v _ => Endian.length_encode e w v) hr

theorem uintKnown (w : Nat) (known : List Nat) (h1 : 1 ≤ w) (h8 : w ≤ 8) (hne : known ≠ [])
    (hlen : known.length ≤ 256) (hknown : ∀ v ∈ known, v < 256 ^ w) (hr : Reads o w o') :
    Follows k hole n o (Grammar.request (.uintKnown w known) : Grammar K Nat).run
      (fun _ o'' => o'' = o') anyEnd := by
  rw [Grammar.run_request, Request.answer, readUIntKnown_eq w known h1 h8]
  exact width (Field.uintKnown_lawful w known h1 h8 hne hlen hknown)
    (fun _ e v _ => Endian.length_encode e w v) hr

theorem bytes (w : Nat) (hr : Reads o w o') :
    Follows k hole n o (Grammar.request (.bytes w) : Grammar K Bytes).run
      (fun _ o'' => o'' = o') anyEnd := by
  rw [Grammar.run_request, Request.answer, readBytes_eq]
  exact width (Field.bytes_lawful w) (fun _ _ _ h => h) hr

theorem bytesKnown (w : Nat) (known : List Bytes) (h1 : 1 ≤ w) (hne : known ≠ [])
    (hlen : known.length ≤ 256) (hknown : ∀ bs ∈ known, bs.length = w) (hr : Reads o w o') :
    Follows k hole n o (Grammar.request (.bytesKnown w known) : Grammar K Bytes).run
      (fun _ o'' => o'' = o') anyEnd := by
  rw [Grammar.run_request, Request.answer, readBytesKnown_eq w known hknown]
  refine width (Field.bytesKnown_lawful w known h1 hne hlen hknown) ?_ hr
  intro b e bs hbs
  rcases hbs with hbs | hbs
  · exact hknown bs hbs
  · exact hbs.2

theorem exactly (w v : Nat) (h1 : 1 ≤ w) (h8 : w ≤ 8) (hv : v < 256 ^ w) (hr : Reads o w o') :
    Follows k hole n o (Grammar.request (.uintKnown w [v]) : Grammar K Nat).run
      (fun _ o'' => o'' = o') anyEnd := by
  apply uintKnown w [v] h1 h8 (List.cons_ne_nil _ _) (by simp) ?_ hr
  intro u hu
  rw [List.mem_singleton.1 hu]
  exact hv

theorem literal (w : Nat) (bs : Bytes) (h1 : 1 ≤ w) (hbs : bs.length = w) (hr : Reads o w o') :
    Follows k hole n o
      (Grammar.underEvil false (Grammar.request (.bytesKnown w [bs])) : Grammar K Bytes).run
      (fun _ o'' => o'' = o') anyEnd := by
  apply underEvil
  apply bytesKnown w [bs] h1 (List.cons_ne_nil _ _) (by simp) ?_ hr
  intro b hb
  rw [List.mem_singleton.1 hb, hbs]

theorem string (w : Nat) (hr : Reads o w o') :
    Follows k hole n o (Grammar.request (.string w) : Grammar K Bytes).run
      (fun _ o'' => o'' = o') anyEnd := by
  rw [Grammar.run_request, Request.answer, readString_eq]
  exact width (Field.string_text_lawful w) (fun _ _ _ h => h) hr

/-- A terminated string may only be read where nothing is fixed ahead. -/
theorem cstring (most c : Nat) (hw : lengthWidth most ≤ 8) :
    Follows k hole n (edge c) (Grammar.request (.cstring most) : Grammar K Bytes).run
      (fun bs o'' => o'' = edge (c + (bs.length + 1))) anyEnd := by
  rw [Grammar.run_request, Request.answer, readCString_eq]
  apply field (terminated_lawful most hw)
  · intro im him
    left
    intro j
    rw [Bool.eq_false_iff, Ne, him.fixedAt, him.cursor]
    simp only [edge]
    omega
  · intro b e bs _
    have hl : ((terminated (K := K) most).encode e bs).length = bs.length + 1 := by
      simp [terminated]
    rw [hl]
    exact Reads.fresh c _

theorem tell : Follows k hole n o (Grammar.request .tell : Grammar K Nat).run
    (fun a o'' => a = o.cursor ∧ o'' = o) anyEnd := by
  rw [Grammar.run_request, Request.answer]
  intro l a l' hl h
  cases h
  refine ⟨o, ⟨hl.shows.cursor, rfl⟩, hl, Grows.refl hole _, ?_⟩
  intro g hp _ _
  refine ⟨g, ?_, hp, Steps.refl _ g⟩
  rw [Walker.tell, hp.agree.cursor]

theorem fileSize (c : Nat) :
    Follows k hole n (edge c) (Grammar.request .fileSize : Grammar K Nat).run
      (fun a o'' => a = c ∧ o'' = edge c) anyEnd := by
  rw [Grammar.run_request, Request.answer]
  intro l a l' hl h
  cases h
  refine ⟨edge c, ⟨hl.shows.size, rfl⟩, hl, Grows.refl hole _, ?_⟩
  intro g hp _ _
  refine ⟨g, ?_, hp, Steps.refl _ g⟩
  rw [Walker.fileSize, hp.agree.size]

/-- The byte order is not changed while a field is reserved. -/
theorem setEndian (e : Endian) (hhole : hole.stop ≤ hole.start) :
    Follows k hole n o (Grammar.request (.setEndian e) : Grammar K Unit).run
      (fun _ o'' => o'' = o) anyEnd := by
  rw [Grammar.run_request, Request.answer]
  intro l a l' hl h
  cases h
  refine ⟨o, rfl, ⟨hl.sound.like rfl rfl rfl, hl.shows, hl.behind⟩,
    ⟨rfl, rfl, fun _ => rfl, ⟨[], by simp⟩, rfl, fun hh => absurd hh (by omega), Nat.le_refl _,
      fun _ hi => ⟨hi, fun _ => rfl⟩⟩, ?_⟩
  intro g hp _ _
  exact ⟨{ g with endian := e }, rfl, ⟨hp.sound.like rfl rfl rfl, hp.agree, hp.room, hp.tapes,
    hp.books, rfl, hp.evil, hp.log⟩, Steps.still rfl rfl⟩

theorem lookBytes (c off w : Nat) (known : List Bytes) (h1 : 1 ≤ w) (hne : known ≠ [])
    (hlen : known.length ≤ 256) (hknown : ∀ bs ∈ known, bs.length = w) :
    Follows k hole n (edge c) (Grammar.request (.lookBytes off w known) : Grammar K Bytes).run
      (fun _ o'' => o'' = ⟨c, off, w⟩) anyEnd := by
  rw [Grammar.run_request, Request.answer, lookBytesKnown, readBytesKnown_eq w known hknown]
  refine looking (Field.bytesKnown_lawful w known h1 hne hlen hknown) (by omega) ?_
  intro b e bs hbs
  rcases hbs with hbs | hbs
  · exact hknown bs hbs
  · exact hbs.2

end Follows

end DecisionWalk
