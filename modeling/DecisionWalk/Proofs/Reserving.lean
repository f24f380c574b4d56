import DecisionWalk.Proofs.Requests

/-!
# Reserved fields

A reserved field is a hole until it is patched: a parse has its bytes from the
start, a generation writes zeros first. The patch closes the hole, and the value
it stores is the one that a parse found when it reserved the field.
-/

set_option autoImplicit false

namespace DecisionWalk

open Image Walker Outline

variable {K : Type} {m : Mode} {k : Link} {n : Nat} {s t : State K}

def Mode.held : Mode → Nat → Option Nat
  | .parse, v => some v
  | .generate, _ => none

namespace Walker

theorem seek_back {p : Nat} (hp : p ≤ s.image.size) (hs : s.image.size ≤ s.image.limit) :
    seek p s = .ok () { s with image := s.image.moveTo p } := by
  rw [seek, get_bind, if_neg (by omega), if_neg (by omega)]
  rfl

def heldAt (m : Mode) (s : State K) (w : Nat) : Option Nat :=
  match m with
  | .parse => some (s.endian.decode (s.image.window s.image.cursor w))
  | .generate => none

theorem reserve_found {w : Nat} {r : Option Bytes} (h1 : 1 ≤ w) (h8 : w ≤ 8)
    (h : found s.image.cursor w s = .ok r s) :
    reserve w s = (emit (r.getD (List.replicate w 0)) >>= fun _ =>
      pure ⟨s.image.cursor, w, r.map s.endian.decode⟩ : Walker K Reserved) s := by
  rw [reserve, checkWidth_run h1 h8]
  show (found s.image.cursor w >>= fun there => get >>= fun u => emit _ >>= fun _ => pure _ :
    Walker K Reserved) s = _
  rw [bind_run h]
  rfl

theorem reserve_run {w : Nat} (h1 : 1 ≤ w) (h8 : w ≤ 8) (hs : Sound m s)
    (ho : Field.Opens w s.image) (hroom : s.image.cursor + w ≤ s.image.limit) :
    ∃ bs t, bs.length = w ∧ reserve w s = .ok ⟨s.image.cursor, w, heldAt m s w⟩ t ∧
      Emits bs s t ∧ Sound m t := by
  cases m with
  | generate =>
    have hlen : (List.replicate w (0 : UInt8)).length = w := List.length_replicate
    obtain ⟨t, ht, he, hst⟩ := emit_generate (List.replicate w 0) hs (by omega)
    refine ⟨List.replicate w 0, t, hlen, ?_, he, hst⟩
    rw [reserve_found h1 h8 (found_fresh hs _ w ho.1 ho.2), Option.getD_none, bind_run ht]
    rfl
  | parse =>
    rw [hs.limit_parse] at hroom
    have hw := window_stands s.image w hroom
    obtain ⟨t, ht, he, hst⟩ := emit_parse hs hw
    refine ⟨s.image.window s.image.cursor w, t, window_length _ _ _ hroom, ?_, he, hst⟩
    rw [reserve_found h1 h8 (found_parse hs _ w hroom), Option.getD_some, bind_run ht]
    rfl

theorem reserve_ok {w : Nat} {r : Reserved} (h1 : 1 ≤ w) (h8 : w ≤ 8) (hs : Sound m s)
    (ho : Field.Opens w s.image) (h : reserve w s = .ok r t) :
    s.image.cursor + w ≤ s.image.limit := by
  cases m with
  | generate =>
    rw [reserve_found h1 h8 (found_fresh hs _ w ho.1 ho.2)] at h
    obtain ⟨_, u, he, -⟩ := bind_ok.1 h
    have := (emit_ok hs he).2.2.1
    rw [Option.getD_none, List.length_replicate] at this
    exact this
  | parse =>
    rw [reserve, checkWidth_run h1 h8] at h
    replace h : (found s.image.cursor w >>= fun there => get >>= fun u => emit _ >>= fun _ =>
      pure _ : Walker K Reserved) s = .ok r t := h
    obtain ⟨_, u, hf, -⟩ := bind_ok.1 h
    rw [hs.limit_parse]
    exact (found_parse_ok hs hf).2.2

theorem patch_run {p w v : Nat} {held : Option Nat} {u : State K} (hs : Sound m s)
    (hp : p ≤ s.image.size) (hback : s.image.cursor ≤ s.image.size)
    (hheld : m = .parse → held = some v)
    (h : emit (s.endian.encode w v) { s with image := s.image.moveTo p } = .ok () u) :
    patch ⟨p, w, held⟩ v s = .ok () { u with image := u.image.moveTo s.image.cursor } := by
  have hu := emit_ok (hs.moveTo p) h
  have hsize : s.image.size ≤ u.image.size := by
    rw [hu.1.writes.size]
    exact Nat.le_max_left _ _
  have hcheck : ¬ (s.mode = .parse ∧ held ≠ some v) := by
    rintro ⟨hm, hne⟩
    exact hne (hheld (hs.mode.symm.trans hm))
  rw [patch, get_bind, if_neg hcheck]
  show (seek p >>= fun _ => get >>= fun s' => emit (s'.endian.encode w v) >>= fun _ =>
    seek s.image.cursor : Walker K Unit) s = _
  rw [bind_run (seek_back hp hs.size_limit), get_bind, bind_run h,
    seek_back (by omega) hu.2.1.size_limit]

theorem patch_ok {p w v : Nat} {held : Option Nat} {a : Unit} (hs : Sound m s)
    (hp : p ≤ s.image.size) (hback : s.image.cursor ≤ s.image.size)
    (h : patch ⟨p, w, held⟩ v s = .ok a t) :
    (m = .parse → held = some v) ∧
      ∃ u, emit (s.endian.encode w v) { s with image := s.image.moveTo p } = .ok () u ∧
        t = { u with image := u.image.moveTo s.image.cursor } := by
  by_cases hcheck : s.mode = .parse ∧ held ≠ some v
  · rw [patch, get_bind, if_pos hcheck] at h
    obtain ⟨_, _, h1, -⟩ := bind_ok.1 h
    exact absurd h1 (violation_not_ok _ _ _ _)
  · have hheld : m = .parse → held = some v := by
      intro hm
      by_cases hv : held = some v
      · exact hv
      · exact absurd ⟨hs.mode.trans hm, hv⟩ hcheck
    have hemit : ∃ u, emit (s.endian.encode w v) { s with image := s.image.moveTo p } =
        .ok () u := by
      rw [patch, get_bind, if_neg hcheck] at h
      replace h : (seek p >>= fun _ => get >>= fun s' => emit (s'.endian.encode w v) >>= fun _ =>
        seek s.image.cursor : Walker K Unit) s = .ok a t := h
      rw [bind_run (seek_back hp hs.size_limit), get_bind] at h
      obtain ⟨_, u, h1, -⟩ := bind_ok.1 h
      exact ⟨u, h1⟩
    obtain ⟨u, hu⟩ := hemit
    rw [patch_run hs hp hback hheld hu] at h
    cases h
    exact ⟨hheld, u, hu, rfl⟩

theorem decideCount_run {most : Nat} {derived : Option Nat}
    (hm : s.mode = .parse → derived ≠ none) (hle : ∀ v, derived = some v → v ≤ most) :
    decideCount most derived s = drawCount most derived s := by
  cases derived with
  | none =>
    have hg : ¬ s.mode = .parse := fun hp => hm hp rfl
    show (get >>= fun u => if u.mode = .parse then _ else _ : Walker K Nat) s = _
    rw [get_bind, if_neg hg]
    rfl
  | some v =>
    have := hle v rfl
    rw [decideCount]
    simp only
    rw [if_neg (by omega)]
    rfl

theorem decideCount_ok {most v : Nat} {derived : Option Nat}
    (h : decideCount most derived s = .ok v t) :
    (s.mode = .parse → derived ≠ none) ∧ (∀ w, derived = some w → w ≤ most) ∧
      drawCount most derived s = .ok v t := by
  cases derived with
  | none =>
    by_cases hg : s.mode = .parse
    · replace h : (get >>= fun u => if u.mode = .parse then _ else _ : Walker K Nat) s =
          .ok v t := h
      rw [get_bind, if_pos hg] at h
      obtain ⟨_, _, h1, -⟩ := bind_ok.1 h
      exact absurd h1 (violation_not_ok _ _ _ _)
    · have hc : s.mode = .parse → (none : Option Nat) ≠ none := fun hp => absurd hp hg
      have hl : ∀ w, (none : Option Nat) = some w → w ≤ most := fun w hw => (nomatch hw)
      rw [decideCount_run hc hl] at h
      exact ⟨hc, hl, h⟩
  | some w =>
    by_cases hw : most < w
    · rw [decideCount] at h
      simp only at h
      rw [if_pos hw] at h
      obtain ⟨_, _, h1, -⟩ := bind_ok.1 h
      exact absurd h1 (violation_not_ok _ _ _ _)
    · have hc : s.mode = .parse → some w ≠ none := fun _ => Option.some_ne_none w
      have hl : ∀ x, some w = some x → x ≤ most := fun x hx => by
        cases hx
        omega
      rw [decideCount_run hc hl] at h
      exact ⟨hc, hl, h⟩

end Walker

def fieldHole (p w : Nat) : Span := ⟨p, p + w⟩

theorem Link.Covers.wider {k : Link} {hole : Span} {im : Image} (h : k.Covers noHole im) :
    k.Covers hole im := by
  cases k with
  | replay decisions => trivial
  | reparse input => exact ⟨h.1, fun i hi _ => h.2 i hi (noHole_has i)⟩

theorem Grows.closed {hole : Span} (h : Grows hole s t)
    (hfresh : ∀ i, hole.Has i → s.image.fixedAt i = false) : Grows noHole s t := by
  refine ⟨h.mode, h.limit, h.input, h.stream, h.depth, fun hh => absurd hh (Nat.lt_irrefl 0),
    h.size, ?_⟩
  intro i hi
  have hk := h.keeps i hi
  refine ⟨hk.1, fun _ => hk.2 ?_⟩
  intro hh
  rw [hfresh i hh] at hi
  cases hi

section Reserved

variable {l l' : State K} {o o' : Outline} {w : Nat}

/-- The follower reserves the field, too. -/
theorem Pairs.reserved {g : State K} {bs : Bytes} {p : Nat} (h1 : 1 ≤ w) (h8 : w ≤ 8)
    (hcur : l.image.cursor = p) (hopen : Field.Opens w l.image)
    (hroom : l.image.cursor + w ≤ l.image.limit) (he : Emits bs l l') (hlen : bs.length = w)
    (hp : Pairs k noHole n l g) (hcov : k.Covers (fieldHole p w) l'.image) :
    ∃ g', reserve w g = .ok ⟨p, w, heldAt k.follower g w⟩ g' ∧
      Pairs k (fieldHole p w) n l' g' ∧ g'.stream = g.stream := by
  have hc := hp.agree.cursor
  have hgopen : Field.Opens w g.image := by
    refine ⟨hopen.1, ?_⟩
    intro j hj
    rw [← hp.agree.fixedAt, ← hc]
    exact hopen.2 j hj
  have hgroom : g.image.cursor + w ≤ g.image.limit := by
    cases k with
    | replay decisions =>
      have : l.image.limit ≤ g.image.limit := hp.room
      omega
    | reparse input =>
      have hsize : l'.image.size ≤ input.size := hcov.1
      rw [he.writes.size, hlen] at hsize
      rw [hp.sound.limit_parse, hp.room.1]
      omega
  obtain ⟨cs, g', hclen, hg', heg, hsg⟩ := reserve_run h1 h8 hp.sound hgopen hgroom
  refine ⟨g', by rw [hg', ← hc, hcur], ?_, ?_⟩
  · apply hp.emitted he heg (hlen.trans hclen.symm) (fun i _ _ => noHole_has i) ?_ hsg ?_
    · intro j hj hh
      have hin : (fieldHole p w).Has (l.image.cursor + j) :=
        ⟨show p ≤ l.image.cursor + j by omega, show l.image.cursor + j < p + w by omega⟩
      exact absurd hin hh
    · cases k with
      | replay decisions =>
        show l'.image.limit ≤ g'.image.limit
        rw [he.writes.limit, heg.writes.limit]
        exact hp.room
      | reparse input => exact ⟨(heg.input hp.sound.mode).trans hp.room.1, hp.room.2⟩
  · rw [heg.rest]
    rfl

theorem Pairs.reserves {r : Reserved} (h1 : 1 ≤ w) (h8 : w ≤ 8) (hl : At k.leader noHole o l)
    (hr : Reads o w o') (hopen : Field.Opens w l.image) (h : reserve w l = .ok r l') :
    r = ⟨o.cursor, w, heldAt k.leader l w⟩ ∧ At k.leader (fieldHole o.cursor w) o' l' ∧
      Grows (fieldHole o.cursor w) l l' ∧ l'.stream = l.stream ∧
      ∀ g n, Pairs k noHole n l g → k.Covers (fieldHole o.cursor w) l'.image →
        ∃ g', reserve w g = .ok ⟨o.cursor, w, heldAt k.follower g w⟩ g' ∧
          Pairs k (fieldHole o.cursor w) n l' g' ∧ g'.stream = g.stream := by
  have hcur := hl.shows.cursor
  have hroom := reserve_ok h1 h8 hl.sound hopen h
  obtain ⟨bs, t, hlen, ht, he, hs'⟩ := reserve_run h1 h8 hl.sound hopen hroom
  rw [ht] at h
  cases h
  have hshows := (hlen ▸ hr : Reads o bs.length o').shows hl.shows he.writes
  have hg : Grows (fieldHole o.cursor w) l l' := by
    apply Grows.emitted (e := []) (by rw [State.recorded_nil]; exact he)
    intro j hj hfix _
    rw [hopen.2 j (by omega)] at hfix
    cases hfix
  refine ⟨by rw [hcur], ⟨hs', hshows, Nat.le_of_eq hr.cursor.symm⟩, hg, ?_,
    fun g n hp hcov => hp.reserved h1 h8 hcur hopen hroom he hlen hcov⟩
  rw [he.rest]
  rfl

section Patching

variable {c p v : Nat} {u : State K}

/-- The bytes of a patch lie within the file, where everything is fixed. -/
theorem At.patching {m : Mode} (hl : At m (fieldHole p w) (edge c) l)
    (he : Emits (l.endian.encode w v) { l with image := l.image.moveTo p } u) :
    u.image.size = c ∧ ∀ i, u.image.fixedAt i = l.image.fixedAt i := by
  have hsize : l.image.size = c := hl.shows.size
  have hbehind : p + w ≤ c := hl.behind
  have hlen : (l.endian.encode w v).length = w := Endian.length_encode _ _ _
  constructor
  · rw [he.writes.size, moveTo_size, moveTo_cursor, hlen]
    omega
  · intro i
    rw [he.writes.fixedAt, moveTo_fixedAt, moveTo_cursor, hlen]
    by_cases hi : p ≤ i ∧ i < p + w
    · have hfix : l.image.fixedAt i = true := (hl.shows.fixedAt i).2 (Or.inl (by
        simp only [edge]
        omega))
      rw [hfix]
      rfl
    · rw [decide_eq_false hi, Bool.or_false]

theorem At.patched {m : Mode} (hl : At m (fieldHole p w) (edge c) l) (hs : Sound m u)
    (he : Emits (l.endian.encode w v) { l with image := l.image.moveTo p } u) :
    At m noHole (edge c) { u with image := u.image.moveTo c } := by
  obtain ⟨hsize, hfixed⟩ := hl.patching he
  refine ⟨(hs.moveTo _).like rfl rfl rfl, ⟨rfl, ?_, ?_⟩, Nat.zero_le _⟩
  · rw [moveTo_size, hsize]
    rfl
  · intro i
    rw [moveTo_fixedAt, hfixed]
    exact hl.shows.fixedAt i

theorem Grows.moved {hole : Span} (h : Grows hole { s with image := s.image.moveTo p } t)
    (q : Nat) : Grows hole s { t with image := t.image.moveTo q } :=
  ⟨h.mode, h.limit, h.input, h.stream, h.depth, h.endian, h.size, h.keeps⟩

theorem Grows.patched (he : Emits (s.endian.encode w v) { s with image := s.image.moveTo p } u)
    (c : Nat) : Grows (fieldHole p w) s { u with image := u.image.moveTo c } := by
  have hlen : (s.endian.encode w v).length = w := Endian.length_encode _ _ _
  refine Grows.moved (Grows.emitted (e := []) (by rw [State.recorded_nil]; exact he) ?_) c
  intro j hj _ hout
  exact absurd ⟨Nat.le_add_right p j, Nat.add_lt_add_left (hlen ▸ hj) p⟩ hout

/-- The follower patches its field, too. -/
theorem Pairs.patched {g : State K} {held : Option Nat}
    (hl : At k.leader (fieldHole p w) (edge c) l) (hp : Pairs k (fieldHole p w) n l g)
    (hu : emit (l.endian.encode w v) { l with image := l.image.moveTo p } = .ok () u)
    (hcov : k.Covers noHole (u.image.moveTo c)) (hheld : k.follower = .parse → held = some v) :
    ∃ g', patch ⟨p, w, held⟩ v g = .ok () g' ∧
      Pairs k noHole n { u with image := u.image.moveTo c } g' ∧ g'.stream = g.stream := by
  have hcur : g.image.cursor = c := hp.agree.cursor.symm.trans hl.shows.cursor
  have hsize : g.image.size = c := hp.agree.size.symm.trans hl.shows.size
  have hbehind : p + w ≤ c := hl.behind
  have hlen : (l.endian.encode w v).length = w := Endian.length_encode _ _ _
  obtain ⟨g', hg', heg, hp'⟩ := (hp.moved p).emits (hl.sound.moveTo p) hu hcov.moved
    (Nat.zero_le _) (fun i _ hi hh => hi (by
      rw [moveTo_cursor, hlen]
      exact hh))
  have hrun : patch ⟨p, w, held⟩ v g = .ok () _ :=
    patch_run hp.sound (by omega) (by omega) hheld (hp.endian ▸ hg')
  rw [hcur] at hrun
  refine ⟨_, hrun, hp'.moved c, ?_⟩
  show g'.stream = _
  rw [heg.rest]
  rfl

end Patching

theorem Pairs.patches {c p v : Nat} {held : Option Nat} {a : Unit}
    (hl : At k.leader (fieldHole p w) (edge c) l) (h : patch ⟨p, w, held⟩ v l = .ok a l') :
    (k.leader = .parse → held = some v) ∧ At k.leader noHole (edge c) l' ∧
      Grows (fieldHole p w) l l' ∧ l'.stream = l.stream ∧
      (∃ im, Writes (l.endian.encode w v) (l.image.moveTo p) im ∧ l'.image = im.moveTo c) ∧
      ∀ g n held', Pairs k (fieldHole p w) n l g → k.Covers noHole l'.image →
        (k.follower = .parse → held' = some v) →
        ∃ g', patch ⟨p, w, held'⟩ v g = .ok () g' ∧ Pairs k noHole n l' g' ∧
          g'.stream = g.stream := by
  have hcur : l.image.cursor = c := hl.shows.cursor
  have hsize : l.image.size = c := hl.shows.size
  have hbehind : p + w ≤ c := hl.behind
  obtain ⟨hheld, u, hu, rfl⟩ := patch_ok hl.sound (by omega) (by omega) h
  obtain ⟨he, hs', -, -⟩ := emit_ok (hl.sound.moveTo p) hu
  rw [hcur]
  refine ⟨hheld, hl.patched hs' he, Grows.patched he c, ?_, ⟨u.image, he.writes, rfl⟩,
    fun g n held' hp hcov hval => hp.patched hl hu hcov hval⟩
  rw [he.rest]
  rfl

theorem Pairs.held {g : State K} {v : Nat} {im im' : Image} (hp : Pairs k noHole n l g)
    (hw : Writes (l.endian.encode w v) (im.moveTo l.image.cursor) im')
    (hcov : k.Covers noHole im') (hv : k.follower = .parse → v < 256 ^ w) :
    heldAt k.follower g w = k.follower.held v := by
  cases k with
  | replay decisions => rfl
  | reparse input =>
    have hcur : (im.moveTo l.image.cursor).cursor = g.image.cursor := hp.agree.cursor
    have hst := Link.stands hp.room.1 hcur hw hcov (Nat.zero_le _)
    have hwin := stands_window hst
    rw [Endian.length_encode] at hwin
    show some (g.endian.decode (g.image.window g.image.cursor w)) = some v
    rw [hwin, hp.endian, Endian.decode_encode, Nat.mod_eq_of_lt (hv rfl)]

theorem heldAt_held (m : Mode) (s : State K) (w v : Nat) :
    ∃ x, heldAt m s w = m.held x ∧ (m = .parse → x < 256 ^ w) ∧ (m = .generate → x = v) := by
  cases m with
  | generate => exact ⟨v, rfl, fun hm => (nomatch hm), fun _ => rfl⟩
  | parse =>
    refine ⟨_, rfl, fun _ => ?_, fun hm => (nomatch hm)⟩
    have hlt := Endian.decode_lt s.endian (s.image.window s.image.cursor w)
    have hlen : (s.image.window s.image.cursor w).length ≤ w := by
      rw [window, Array.length_toList, Array.size_extract]
      omega
    exact Nat.lt_of_lt_of_le hlt (Nat.pow_le_pow_right (by decide) hlen)

/-- A count is bounded by what is left of the file, which the walks see differently. -/
theorem Pairs.counts (hole : Span) {most v : Nat} {d : Option Nat} (hs : Sound k.leader l)
    (hd : ∀ w, d = some w → w < 256 ^ 8) (h : decideCount most d l = .ok v l') :
    (∃ e, l' = l.recorded e) ∧ v ≤ most ∧ (∀ w, d = some w → w = v) ∧
      ∀ g n most' d', Pairs k hole n l g → k.Reaches l'.stream → v ≤ most' →
        (d' = some v ∨ d' = none ∧ k.follower = .generate) →
        ∃ c, decideCount most' d' g = .ok v (g.recorded c) ∧ Pairs k hole n l' (g.recorded c) ∧
          (l'.stream.position = l.stream.position ↔ c = []) := by
  obtain ⟨hm, hle, h⟩ := decideCount_ok h
  have hcodec := fun most => count_codec (K := K) (T := True) most
  have hfits : ∀ w, d = some w → w ≤ most ∧ w < 256 ^ 8 := fun w hw => ⟨hle w hw, hd w hw⟩
  obtain ⟨hv, hdv, e, rfl⟩ := (hcodec most).ran h hfits
  refine ⟨⟨e, rfl⟩, hv.1, hdv, ?_⟩
  intro g n most' d' hp hreach hv' hd'
  have hlead : k.leader = .parse → d ≠ none := fun hk => hm (hs.mode.trans hk)
  obtain ⟨c, hc, htapes, hed⟩ := k.draws (hcodec most) (hcodec most') hp.tapes h hfits hlead
    ⟨hv', hv.2⟩ hd' hreach
  have hec : e = [] ↔ c = [] := by
    rw [← hed]
    simp
  refine ⟨c, ?_, hp.recorded htapes hec, hed⟩
  rw [decideCount_run ?_ ?_, hc]
  · rintro hmode rfl
    rcases hd' with hd' | hd'
    · cases hd'
    · rw [hp.sound.mode, hd'.2] at hmode
      cases hmode
  · rintro w rfl
    rcases hd' with hd' | hd'
    · cases hd'
      exact hv'
    · cases hd'.1

theorem Grows.filled (h : Grows (fieldHole o.cursor w) l l') (hl : o.Shows l.image)
    (hopen : Field.Opens w l.image) : Grows noHole l l' := by
  apply h.closed
  intro i hi
  have hle : o.cursor ≤ i := hi.1
  have hlt : i < o.cursor + w := hi.2
  have hfresh := hopen.2 (i - o.cursor) (by omega)
  rw [hl.cursor, Nat.add_sub_cancel' hle] at hfresh
  exact hfresh

theorem Mode.held_eq {m : Mode} {x v : Nat} (hparse : m = .parse → m.held x = some v)
    (hgenerate : m = .generate → x = v) : x = v := by
  cases m with
  | parse => exact Option.some.inj (hparse rfl)
  | generate => exact hgenerate rfl

theorem Pairs.size_le {hole hole' : Span} {g : State K} {im : Image} (hp : Pairs k hole n l g)
    (hcov : k.Covers hole' im) (hm : k.follower = .parse) : im.size ≤ 2 ^ 32 := by
  cases k with
  | replay decisions => cases hm
  | reparse input => exact Nat.le_trans hcov.1 hp.room.2

end Reserved

/-- A field is reserved, a body gives the value for it, and the field is patched. The body may
depend on the value that was found. -/
theorem Follows.reserving {α : Type} {o o' : Outline} {w : Nat}
    (body : Option Nat → Walker K (α × Nat)) (post : α × Nat → Outline → Prop)
    (ends : α → State K → Prop) (h1 : 1 ≤ w) (h8 : w ≤ 8)
    (hr : Reads o w o') (hopen : ∀ im, o.Shows im → Field.Opens w im)
    (hbody : ∀ v, (k.leader = .parse → v < 256 ^ w) → Mirrors k (fieldHole o.cursor w) n o'
      (body (k.leader.held v)) (body (k.follower.held v)) post fun a s => a.2 = v ∧ ends a.1 s)
    (hpost : ∀ a o'', post a o'' → ∃ c, o'' = edge c ∧ (c ≤ 2 ^ 32 → a.2 < 256 ^ w))
    (hends : ∀ a s t, s.image.size = t.image.size → ends a s → ends a t) :
    Follows k noHole n o (do
      let r ← reserve w
      let a ← body r.parsed
      patch r a.2
      pure a.1) (fun a o'' => ∃ v, post (a, v) o'') ends := by
  intro l a l' hl h
  obtain ⟨r, l1, hreserve, h⟩ := bind_ok.1 h
  obtain ⟨⟨b, v⟩, l2, hrun, h⟩ := bind_ok.1 h
  obtain ⟨_, l3, hpatch, h⟩ := bind_ok.1 h
  cases h
  have hopened := hopen _ hl.shows
  obtain ⟨rfl, hl1, hg1, hs1, hfollow1⟩ := Pairs.reserves h1 h8 hl hr hopened hreserve
  obtain ⟨x, hx, hlt, hgen⟩ := heldAt_held k.leader l w v
  dsimp only at hrun
  rw [hx] at hrun hpatch
  obtain ⟨o2, hp2, hl2, hg2, hfollow2⟩ := hbody x hlt l1 _ l2 hl1 hrun
  obtain ⟨c, rfl, hbound⟩ := hpost _ _ hp2
  obtain ⟨hsame, hl3, hg3, hs3, ⟨im, hwrites, him⟩, hfollow3⟩ := Pairs.patches hl2 hpatch
  obtain rfl := Mode.held_eq hsame hgen
  refine ⟨edge c, ⟨x, hp2⟩, hl3, ((hg1.trans hg2).trans hg3).filled hl.shows hopened, ?_⟩
  intro g hp hin hend
  have hin3 : k.Within (fieldHole o.cursor w) l' := ⟨hin.1, hin.2.wider⟩
  have hin2 := hin3.earlier hg3
  have hin1 := hin2.earlier hg2
  have hsize3 : l'.image.size = c := hl3.shows.size
  have hfound : heldAt k.follower g w = k.follower.held x := by
    have hhole : (fieldHole o.cursor w).start < (fieldHole o.cursor w).stop :=
      show o.cursor < o.cursor + w by omega
    have hcov := hin.2
    rw [him] at hcov
    rw [(hg2.endian hhole).trans (hg1.endian hhole), ← hl.shows.cursor] at hwrites
    exact hp.held hwrites hcov.moved fun hm => hbound (hsize3 ▸ hp.size_le hin.2 hm)
  obtain ⟨g1, hrun1, hp1, hs1'⟩ := hfollow1 g n hp hin1.2
  obtain ⟨g2, hrun2, hp2', hst2⟩ :=
    hfollow2 g1 hp1 hin2 ⟨rfl, hends _ _ _ (hsize3.trans hl2.shows.size.symm) hend⟩
  obtain ⟨g3, hrun3, hp3, hs3'⟩ := hfollow3 g2 n (k.follower.held x) hp2' hin.2 (by
    intro hm
    rw [hm]
    rfl)
  refine ⟨g3, ?_, hp3, ?_⟩
  · rw [bind_run hrun1, hfound, bind_run hrun2, bind_run hrun3, pure_run]
  · exact ((Steps.still hs1 hs1').trans hst2 hg1 hg2).trans (Steps.still hs3 hs3')
      (hg1.trans hg2) hg3

def Link.Leaves (margin : Nat) (s : State K) : Link → Prop
  | .replay _ => True
  | .reparse input => s.image.size + margin ≤ input.size

theorem Link.Leaves.resized {margin : Nat} (h : k.Leaves margin s)
    (hsize : s.image.size = t.image.size) : k.Leaves margin t := by
  cases k with
  | replay decisions => trivial
  | reparse input =>
    show t.image.size + margin ≤ input.size
    rw [← hsize]
    exact h

theorem Link.Whole.resized (h : k.Whole s) (hsize : s.image.size = t.image.size) : k.Whole t := by
  cases k with
  | replay decisions => trivial
  | reparse input =>
    show input.size ≤ t.image.size
    rw [← hsize]
    exact h

/-- A count of bytes that must leave `margin` bytes of the file. -/
theorem Mirrors.counting {hole : Span} {o : Outline} {d d' : Option Nat} (margin : Nat)
    (hd : ∀ w, d = some w → w < 256 ^ 8) :
    Mirrors k hole n o (Walker.remaining >>= fun room => decideCount (K := K) (room - margin) d)
      (Walker.remaining >>= fun room => decideCount (room - margin) d') (fun _ o'' => o'' = o)
      fun v s => (d' = some v ∨ d' = none ∧ k.follower = .generate) ∧ k.Leaves (v + margin) s := by
  intro l v l' hl h
  have hrun : decideCount (l.remaining - margin) d l = .ok v l' := h
  obtain ⟨⟨e, rfl⟩, hv, -, hfollow⟩ := Pairs.counts hole hl.sound hd hrun
  refine ⟨o, rfl, ⟨hl.sound.recorded e, hl.shows, hl.behind⟩,
    ⟨rfl, rfl, fun _ => rfl, ⟨e, rfl⟩, rfl, fun _ => rfl, Nat.le_refl _,
      fun _ hi => ⟨hi, fun _ => rfl⟩⟩, ?_⟩
  rintro g hp hin ⟨hd', hleaves⟩
  have hroom : v ≤ g.remaining - margin := by
    have hcur := hp.agree.cursor
    have hle := hl.shows.cursor_le
    rw [← hl.shows.cursor] at hle
    rw [State.remaining] at hv ⊢
    cases k with
    | replay decisions =>
      have hlim : l.image.limit ≤ g.image.limit := hp.room
      omega
    | reparse input =>
      have hlim : g.image.limit = input.size := by rw [hp.sound.limit_parse, hp.room.1]
      have hsize : l.image.size + (v + margin) ≤ input.size := hleaves
      omega
  obtain ⟨c, hc, hp', hidle⟩ := hfollow g n _ d' hp hin.1 hroom hd'
  refine ⟨g.recorded c, hc, hp', ⟨⟨c, rfl⟩, hidle.trans ?_⟩⟩
  simp

end DecisionWalk
