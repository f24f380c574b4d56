import DecisionWalk.Proofs.Reserving

/-!
# The last decision

A generation may record decisions past the end of its stream, for bytes that an
earlier look has fixed. It cannot draw any afterwards. So a generation whose last
decision was drawn has taken all its decisions from the stream.
-/

set_option autoImplicit false

namespace DecisionWalk

open Walker Outline

variable {K α β σ : Type} {hole : Span} {n : Nat} {o : Outline}
  {s t u : State K}

def Spent (s t : State K) : Prop :=
  ∃ e, t.stream = s.stream.recorded e ∧ e ≠ [] ∧ e.length ≤ s.stream.ahead.length

theorem Spent.earlier (h : Spent t u) (hg : Grows hole s t) : Spent s u := by
  obtain ⟨d, hd⟩ := hg.stream
  obtain ⟨e, he, hne, hlen⟩ := h
  have hpos : 0 < e.length := List.length_pos_iff.2 hne
  rw [hd, Stream.recorded_ahead, List.length_drop] at hlen
  refine ⟨d ++ e, by rw [he, hd, Stream.recorded_recorded], ?_, ?_⟩
  · intro hc
    exact hne (List.append_eq_nil_iff.1 hc).2
  · rw [List.length_append]
    omega

theorem Spent.like {s' t' : State K} (h : Spent s t) (hs : s'.stream = s.stream)
    (ht : t'.stream = t.stream) : Spent s' t' := by
  rw [Spent, hs, ht]
  exact h

def Spends (hole : Span) (o : Outline) (x : Walker K α) (last : α → Prop) : Prop :=
  ∀ s a t, At .generate hole o s → x s = .ok a t → last a → Spent s t

namespace Spends

variable {x : Walker K α} {post : α → Outline → Prop} {ends : α → State K → Prop}
  {last : α → Prop}

theorem never (h : ∀ s a t, x s = .ok a t → ¬ last a) : Spends hole o x last := by
  intro s a t _ hx hl
  exact absurd hl (h s a t hx)

theorem bind {f : α → Walker K β} {lastb : β → Prop}
    (hx : Follows (.reparse #[]) hole n o x post ends)
    (hf : ∀ a o', post a o' → Spends hole o' (f a) lastb) : Spends hole o (x >>= f) lastb := by
  intro s b t hs h hl
  obtain ⟨a, s', h1, h2⟩ := bind_ok.1 h
  obtain ⟨o', ha, hs', hg, -⟩ := hx s a s' hs h1
  exact (hf a o' ha s' b t hs' h2 hl).earlier hg

/-- Nothing is drawn or recorded any more. -/
theorem andThen {f : α → Walker K β} {lastb : β → Prop}
    (hx : Follows (.reparse #[]) hole n o x post ends) (hspend : Spends hole o x last)
    (hf : ∀ a o' s b t, post a o' → At .generate hole o' s → f a s = .ok b t → lastb b →
      last a ∧ t.stream = s.stream) :
    Spends hole o (x >>= f) lastb := by
  intro s b t hs h hl
  obtain ⟨a, s', h1, h2⟩ := bind_ok.1 h
  obtain ⟨o', ha, hs', -⟩ := hx s a s' hs h1
  obtain ⟨hlast, hstream⟩ := hf a o' s' b t ha hs' h2 hl
  exact (hspend s a s' hs h1 hlast).like rfl hstream

theorem discard [DecidableEq K] {g : Grammar K α} (h : Spends hole o g.run fun _ => True) :
    Spends hole o (discard g : Grammar K Unit).run fun _ => True := by
  rw [Grammar.run_discard]
  intro s b t hs hx _
  obtain ⟨a, s', h1, h2⟩ := bind_ok.1 hx
  cases h2
  exact h s a _ hs h1 trivial

theorem field {f : Field K α} {opens shut : Image → Prop} {fits : Bool → α → Prop}
    {code : α → Bytes} (hf : f.Lawful opens shut fits code)
    (hat : ∀ im, o.Shows im → opens im) (hne : ∀ v, code v ≠ []) :
    Spends hole o f.read last := by
  intro s v t hs h _
  have ho := hat _ hs.shows
  obtain ⟨r, s', h1, h2⟩ := bind_ok.1 h
  obtain ⟨w, s'', h3, h4⟩ := bind_ok.1 h2
  obtain ⟨_, t', h5, h6⟩ := bind_ok.1 ((get_bind _ s'').symm.trans h4)
  cases h6
  rw [hf.absent s hs.sound ho] at h1
  cases h1
  obtain ⟨-, e, tail, hahead, rfl, hnil, -⟩ := hf.codec.drawn _ _ _ h3
  refine ⟨e, ?_, fun hc => hne v (hnil.1 hc), ?_⟩
  · rw [(emit_ok (hs.sound.recorded e) h5).1.rest]
    rfl
  · rw [hahead, List.length_append]
    exact Nat.le_add_right _ _

/-- The coin at the end of the file is always drawn. -/
theorem endOfFile (c threshold : Nat) (h0 : 0 < threshold) (h255 : threshold ≤ 255) :
    Spends hole (edge c) (Walker.endOfFile (K := K) threshold) fun _ => True := by
  have hcodec := endCoin_codec (K := K) (T := True) threshold h0 h255
  intro s b t hs h _
  rw [endOfFile_run threshold (knownEnd_edge hs.sound hs.shows.cursor hs.shows.size)] at h
  obtain ⟨b', u, h1, h2⟩ := bind_ok.1 h
  cases h2
  obtain ⟨-, e, tail, hahead, rfl, hnil, -⟩ := hcodec.drawn _ _ _ h1
  refine ⟨e, rfl, fun hc => absurd (hnil.1 hc) ?_, ?_⟩
  · exact coinCode_ne _
  · rw [hahead, List.length_append]
    exact Nat.le_add_right _ _

/-- Neither a reserved field nor its patch takes decisions. -/
theorem reserving {o' : Outline} {w : Nat} {body : Walker K (α × Nat)}
    {post : α × Nat → Outline → Prop} {ends : α × Nat → State K → Prop} (h1 : 1 ≤ w) (h8 : w ≤ 8)
    (hr : Reads o w o') (hopen : ∀ im, o.Shows im → Field.Opens w im)
    (hbody : Follows (.reparse #[]) (fieldHole o.cursor w) n o' body post ends)
    (hpost : ∀ a o'', post a o'' → ∃ c, o'' = edge c)
    (hspend : Spends (fieldHole o.cursor w) o' body fun _ => True) :
    Spends noHole o (do
      let r ← reserve w
      let a ← body
      patch r a.2
      pure a.1) fun _ => True := by
  intro s a t hs h _
  obtain ⟨r, s1, hreserve, h⟩ := bind_ok.1 h
  obtain ⟨b, s2, hrun, h⟩ := bind_ok.1 h
  obtain ⟨_, s3, hpatch, h⟩ := bind_ok.1 h
  cases h
  obtain ⟨rfl, hs1, -, hstream1, -⟩ :=
    Pairs.reserves (k := .reparse #[]) h1 h8 hs hr (hopen _ hs.shows) hreserve
  obtain ⟨_, hp, hs2, -⟩ := hbody s1 b s2 hs1 hrun
  obtain ⟨c, rfl⟩ := hpost _ _ hp
  obtain ⟨-, -, -, hstream3, -⟩ := Pairs.patches (k := .reparse #[]) hs2 hpatch
  exact (hspend s1 b s2 hs1 hrun trivial).like hstream1.symm hstream3

variable [DecidableEq K]

theorem uintKnown (w c : Nat) (known : List Nat) (h1 : 1 ≤ w) (h8 : w ≤ 8) (hne : known ≠ [])
    (hlen : known.length ≤ 256) (hknown : ∀ v ∈ known, v < 256 ^ w) :
    Spends hole (edge c) (Grammar.request (.uintKnown w known) : Grammar K Nat).run
      fun _ => True := by
  rw [Grammar.run_request, Request.answer, readUIntKnown_eq w known h1 h8]
  apply field (Field.uintKnown_lawful w known h1 h8 hne hlen hknown)
  · intro im him
    exact him.opens (by omega) (Or.inr rfl)
  · intro v hv
    exact coinCode_ne _ (List.append_eq_nil_iff.1 hv).1

theorem seq {g : Grammar K α} {f : α → Grammar K β} {lastb : β → Prop}
    (hg : Follows (.reparse #[]) hole n o g.run post ends)
    (hf : ∀ a o', post a o' → Spends hole o' (f a).run lastb) :
    Spends hole o (g >>= f).run lastb := by
  rw [Grammar.run_bind]
  exact bind hg hf

theorem inScope {body : Grammar K α} (name : String) (kind : K)
    (hf : Follows (.reparse #[]) hole n o body.run post ends)
    (hb : Spends hole o body.run last) :
    Spends hole o (Grammar.inScope name kind body).run last := by
  rw [Grammar.run_inScope]
  intro s a t hs h hl
  obtain ⟨depth, s1, h1, h2⟩ := bind_ok.1 h
  obtain ⟨b, s2, h3, h4⟩ := bind_ok.1 h2
  obtain ⟨_, s3, h5, h6⟩ := bind_ok.1 h4
  cases h6
  obtain ⟨-, rfl⟩ := openScope_ok hs.sound.watches h1
  obtain ⟨o', -, hs2, -⟩ := hf _ _ s2 (hs.tracking _) h3
  have hspent := hb _ _ s2 (hs.tracking _) h3 hl
  rw [closeScope_run depth hs2.sound.watches] at h5
  cases h5
  exact hspent

end Spends

section Loop

variable {step : σ → Walker K (σ ⊕ β)} {inv : σ → Outline → Prop} {post : β → Outline → Prop}
  {ends : β → State K → Prop}

theorem settle_spends
    (hstep : ∀ a o, inv a o → Follows (.reparse #[]) hole n o (step a) (Sum.elim inv post)
      (Sum.elim anyEnd ends))
    (hlast : ∀ a o, inv a o → Spends hole o (step a) fun r => r.isRight = true)
    (start idle : Nat) (a : σ) (o : Outline) (hinv : inv a o) :
    Spends hole o (Grammar.settle step start idle a) fun r => r.isRight = true := by
  induction idle generalizing a o with
  | zero =>
    apply Spends.never
    intro s r t h
    exact absurd h (throw_not_ok _ _ _ _)
  | succ idle ih =>
    intro s r t hs h hr
    cases hx : step a s with
    | error e u =>
      rw [settle_error hx] at h
      cases h
    | ok q u =>
      obtain ⟨o', hq, hu, hg, -⟩ := hstep a o hinv s q u hs hx
      cases q with
      | inr b =>
        rw [settle_inr hx] at h
        cases h
        exact hlast a o hinv s _ _ hs hx rfl
      | inl again =>
        rw [settle_inl hx] at h
        split at h
        · cases h
          cases hr
        · exact (ih again o' hq u r t hu h hr).earlier hg

theorem iterate_spends
    (hstep : ∀ a o, inv a o → Follows (.reparse #[]) hole n o (step a) (Sum.elim inv post)
      (Sum.elim anyEnd ends))
    (hlast : ∀ a o, inv a o → Spends hole o (step a) fun r => r.isRight = true)
    (left : Nat) (a : σ) (o : Outline) (hinv : inv a o) :
    Spends hole o (Grammar.iterate step left a) fun _ => True := by
  induction left generalizing a o with
  | zero =>
    apply Spends.never
    intro s r t h
    exact absurd h (throw_not_ok _ _ _ _)
  | succ left ih =>
    intro s b t hs h _
    cases hx : Grammar.settle step s.stream.position Grammar.idleRounds a s with
    | error e u =>
      rw [iterate_error hx] at h
      cases h
    | ok q u =>
      obtain ⟨o', hq, hu, hg, -⟩ := settle_follows hstep Grammar.idleRounds a o hinv s q u hs hx
      cases q with
      | inr b =>
        rw [iterate_inr hx] at h
        cases h
        exact settle_spends hstep hlast _ _ a o hinv s _ _ hs hx rfl
      | inl again =>
        rw [iterate_inl hx] at h
        exact (ih again o' hq u b t hu h trivial).earlier hg

theorem Spends.repeatFrom [DecidableEq K] (inv : σ → Outline → Prop) {init : σ}
    {body : σ → Grammar K (σ ⊕ β)}
    (hbody : ∀ a o, inv a o → Follows (.reparse #[]) hole n o (body a).run (Sum.elim inv post)
      (Sum.elim anyEnd ends))
    (hlast : ∀ a o, inv a o → Spends hole o (body a).run fun r => r.isRight = true)
    (hinv : inv init o) :
    Spends hole o (Grammar.repeatFrom init body).run fun _ => True := by
  rw [Grammar.run_repeatFrom]
  intro s b t hs h
  exact iterate_spends hbody hlast _ init o hinv s b t hs h

end Loop

end DecisionWalk
