import DecisionWalk.Proofs.PngEdits
import DecisionWalk.Random.Cycle

/-!
# Mutations of a PNG are edits of its bytes

A mutation works on decisions, but the decisions of a chunk are read anywhere as
they were read in its file. So a chunk that is replaced, inserted, deleted or
swapped takes its own bytes along, all others keep theirs, and nothing of the
file comes from the random source.
-/

set_option autoImplicit false

namespace DecisionWalk.Png

open Mutator

def imageOf (inner : List Bytes) : Bytes :=
  signatureBytes ++ chunk ihdr [0, 0, 0, 1, 0, 0, 0, 1, 8, 0, 0, 0, 0] ++ inner.flatten ++
    chunk iend []

def label : Bytes := chunk text [0, 65]

def stamp : Bytes := chunk time [7, 232, 2, 29, 23, 59, 60]

def room : Limits := ⟨61, 92, 2, true⟩

theorem parse_labelled : ∃ w, png.grammar.parse room (imageOf [label]) = .ok w ∧
    (Kind.text, true, ⟨33, 47⟩, ⟨16, 27⟩) ∈ w.chunks.map outline :=
  parses_of_decide _ (by decide +kernel)

theorem parse_stamped_labelled : ∃ w, png.grammar.parse room (imageOf [stamp, label]) = .ok w ∧
    w.chunks.map outline =
      [(.file, false, ⟨0, 78⟩, ⟨0, 50⟩), (.signature, false, ⟨0, 8⟩, ⟨0, 1⟩),
        (.header, false, ⟨8, 33⟩, ⟨1, 16⟩), (.time, true, ⟨33, 52⟩, ⟨16, 34⟩),
        (.text, true, ⟨52, 66⟩, ⟨34, 45⟩), (.finish, true, ⟨66, 78⟩, ⟨45, 50⟩)] ∧
    w.decisions.length = 50 :=
  parses_of_decide _ (by decide +kernel)

section Replacing

variable {limits : Limits} {t d : Bytes} {target donors : Walk Kind} {c e : Chunk Kind}

theorem Dissected.replace_root {ρ : Type} [RandomSource ρ] (hd : Dissected limits d donors)
    (target : Walk Kind) (hfile : d.length ≤ limits.fileCapacity) (r : ρ) :
    ∃ w r', w.file = d ∧ (Mutator.mk png.grammar limits).replace target
      (root target.file.length target.decisions.length)
      (root donors.file.length donors.decisions.length) donors.decisions r =
        .ok ⟨.replace, w, .exact⟩ r' := by
  obtain ⟨w, hmade⟩ := assembled hd.pieces_fit hd.inOrder hd.maxDepth
    (by rw [hd.decisions]; exact hd.fits) (by rw [hd.bytes, hd.file]; exact hfile)
  have hdecisions : w.decisions = donors.decisions := by
    rw [hmade.decisions, hd.decisions]
  have hfound : w.chunks.find? (Watch.fits { start := 0, kind := some .file, depth := some 0 }) =
      some (root w.file.length w.decisions.length) := by
    rw [hmade.dissected.chunks]
    rfl
  have hmet : Watch.Met
      { start := 0, kind := some .file, depth := some 0,
        expectedStop := some (0 + donors.decisions.length) } w := by
    refine ⟨⟨rfl, rfl, rfl⟩, _, hfound, ?_⟩
    rw [Nat.zero_add, ← hdecisions]
    rfl
  have hparts : [target.decisions.take 0, donors.decisions,
      target.decisions.drop target.decisions.length].flatten = w.decisions := by
    simp [hdecisions]
  obtain ⟨r', hrun⟩ := replace_spliced (m := ⟨png.grammar, limits⟩)
    (grammar_stops (by decide)) hmade.generated
    (rfl : compatible (root target.file.length target.decisions.length)
      (root donors.file.length donors.decisions.length) = true) rfl hparts hmet r
  exact ⟨w, r', by rw [hmade.dissected.file, hd.bytes, hd.file], hrun⟩

theorem Dissected.replace_inside {ρ : Type} [RandomSource ρ] (h : Dissected limits t target)
    (hd : Dissected limits d donors) (hc : c ∈ target.chunks.tail) (he : e ∈ donors.chunks.tail)
    (hcompatible : compatible c e = true)
    (hkinds : e.kind = c.kind ∨ e.kind ∈ innerKinds ∧ c.kind ∈ innerKinds)
    (hfile : t.length - c.file.length + e.file.length ≤ limits.fileCapacity)
    (hstream : target.decisions.length - c.decisions.length + e.decisions.length ≤
      limits.streamCapacity) (r : ρ) :
    ∃ w r', w.file = t.take c.file.start ++ e.file.of d ++ t.drop c.file.stop ∧
      (Mutator.mk png.grammar limits).replace target c e (donors.decisionsOf e) r =
        .ok ⟨.replace, w, .exact⟩ r' := by
  obtain ⟨before, behind, htail⟩ := List.append_of_mem hc
  have hmem : e ∈ donors.chunks := List.mem_of_mem_tail he
  obtain ⟨hbytes, hlength⟩ := hd.piece_lengths hmem
  obtain ⟨⟨hfront, hback⟩, hearlier, hlater⟩ := h.around htail
  obtain ⟨w, hmade⟩ := h.replaced htail (hd.piece_fits he) hkinds
    (by rw [hlength]; exact hstream) (by rw [hbytes, h.file]; exact hfile)
  have hparts : [target.decisions.take c.decisions.start, donors.decisionsOf e,
      target.decisions.drop c.decisions.stop].flatten = w.decisions := by
    rw [hmade.decisions, List.flatMap_append, List.flatMap_cons, ← hearlier, ← hlater]
    simp only [List.flatten_cons, List.flatten_nil, List.append_nil]
    rfl
  have hdepth : (some c.depth).all (· == 1) = true := by
    rw [h.depth hc]
    rfl
  obtain ⟨r', hrun⟩ := replace_spliced (m := ⟨png.grammar, limits⟩) (grammar_stops (by decide))
    hmade.generated hcompatible hlength hparts (hmade.met _ (h.decided htail).1 hdepth) r
  refine ⟨w, r', ?_, hrun⟩
  rw [hmade.dissected.file, List.flatMap_append, List.flatMap_cons, ← hfront, ← hback, h.file,
    ← List.append_assoc, ← hd.file]
  rfl

theorem Dissected.places (h : Dissected limits t target) (hd : Dissected limits d donors)
    (hc : c ∈ target.chunks) (he : e ∈ donors.chunks)
    (hkinds : c.optional = false ∧ e.optional = false ∧ c.kind = e.kind ∨
      c.optional = true ∧ e.optional = true ∧ (c.kind = .finish ↔ e.kind = .finish)) :
    e.kind = c.kind ∨ e.kind ∈ innerKinds ∧ c.kind ∈ innerKinds := by
  rcases hkinds with ⟨-, -, hsame⟩ | ⟨hc', he', hends⟩
  · exact Or.inl hsame.symm
  · by_cases hfinish : c.kind = .finish
    · exact Or.inl ((hends.1 hfinish).trans hfinish.symm)
    · exact Or.inr ⟨hd.inner he he' fun hkind => hfinish (hends.2 hkind), h.inner hc hc' hfinish⟩

/-- A chunk is replaced by replacing its bytes. Both chunks are mandatory and of one kind, or both
are optional and both or neither end their files. -/
theorem png_replace_bytes (ht : png.grammar.parse limits t = .ok target)
    (hd : png.grammar.parse limits d = .ok donors) (hc : c ∈ target.chunks)
    (he : e ∈ donors.chunks)
    (hkinds : c.optional = false ∧ e.optional = false ∧ c.kind = e.kind ∨
      c.optional = true ∧ e.optional = true ∧ (c.kind = .finish ↔ e.kind = .finish))
    (hfile : t.length - c.file.length + e.file.length ≤ limits.fileCapacity)
    (hstream : target.decisions.length - c.decisions.length + e.decisions.length ≤
      limits.streamCapacity) {ρ : Type} [RandomSource ρ] (r : ρ) :
    ∃ made r', (Mutator.mk png.grammar limits).replace target c e (donors.decisionsOf e) r =
        .ok made r' ∧ made.outcome = .exact ∧
      made.walk.file = t.take c.file.start ++ e.file.of d ++ t.drop c.file.stop := by
  have h := parse_dissected ht
  have hdonor := parse_dissected hd
  have hplaces := h.places hdonor hc he hkinds
  by_cases hroot : c.kind = .file
  · -- Only the root is a file, and only another root stands where it stands.
    have hroot' : e.kind = .file := by
      rcases hplaces with hsame | ⟨-, hinner⟩
      · exact hsame.trans hroot
      · exact absurd hroot (innerKinds_ne_file hinner)
    obtain rfl := h.eq_root hc hroot
    obtain rfl := hdonor.eq_root he hroot'
    have hall : donors.decisionsOf (root donors.file.length donors.decisions.length) =
        donors.decisions := Span.of_all _
    have hshort : d.length ≤ limits.fileCapacity := by
      rw [← hdonor.file]
      exact Nat.le_trans (Nat.le_add_left _ _) hfile
    obtain ⟨w, r', hw, hrun⟩ := hdonor.replace_root target hshort r
    rw [hall]
    refine ⟨_, r', hrun, rfl, ?_⟩
    simp [hw, root, Span.of, h.file, hdonor.file]
  · have hroot' : e.kind ≠ .file := by
      rcases hplaces with hsame | ⟨hinner, -⟩
      · exact hsame ▸ hroot
      · exact innerKinds_ne_file hinner
    have hcompatible : compatible c e = true := by
      rcases hkinds with ⟨hc', he', hsame⟩ | ⟨hc', he', -⟩ <;> simp [compatible, *]
    obtain ⟨w, r', hw, hrun⟩ := h.replace_inside hdonor (h.mem_tail hc hroot)
      (hdonor.mem_tail he hroot') hcompatible hplaces hfile hstream r
    exact ⟨_, r', hrun, rfl, hw⟩

theorem png_replace_bytes_stamped :
    ∃ target donors c e made r',
      png.grammar.parse room (imageOf [stamp, label]) = .ok target ∧
      png.grammar.parse room (imageOf [label]) = .ok donors ∧
      c ∈ target.chunks ∧ c.kind = .time ∧ e ∈ donors.chunks ∧ e.kind = .text ∧
      (Mutator.mk png.grammar room).replace target c e (donors.decisionsOf e) (Cycle.mk #[1] 0) =
        .ok made r' ∧
      made.outcome = .exact ∧ made.walk.file = imageOf [label, label] := by
  obtain ⟨target, ht, houtlines, hlength⟩ := parse_stamped_labelled
  obtain ⟨donors, hd, htext⟩ := parse_labelled
  have htime : (Kind.time, true, ⟨33, 52⟩, ⟨16, 34⟩) ∈ target.chunks.map outline := by
    rw [houtlines]
    decide
  obtain ⟨c, hc, hkind, hoptional, hfile, hdecisions⟩ := chunk_of_outline htime
  obtain ⟨e, he, hkind', hoptional', hfile', hdecisions'⟩ := chunk_of_outline htext
  obtain ⟨made, r', hrun, hexact, hmade⟩ := png_replace_bytes ht hd hc he
    (Or.inr ⟨hoptional, hoptional', by rw [hkind, hkind']; decide⟩)
    (by rw [hfile, hfile']; decide +kernel) (by rw [hlength, hdecisions, hdecisions']; decide)
    (Cycle.mk #[1] 0)
  rw [hfile, hfile'] at hmade
  exact ⟨target, donors, c, e, made, r', ht, hd, hc, hkind, he, hkind', hrun, hexact,
    hmade.trans (by decide +kernel)⟩

end Replacing

section Inserting

variable {limits : Limits} {t d : Bytes} {target donors : Walk Kind} {e : Chunk Kind}
  {p : InsertionPoint Kind}

/-- At an insertion point a chunk is inserted by inserting its bytes. -/
theorem png_insert_bytes (ht : png.grammar.parse limits t = .ok target)
    (hd : png.grammar.parse limits d = .ok donors) (hp : p ∈ target.points)
    (he : e ∈ donors.chunks) (hoptional : e.optional = true) (hfinish : e.kind ≠ .finish)
    (hfile : t.length + e.file.length ≤ limits.fileCapacity)
    (hstream : target.decisions.length + e.decisions.length ≤ limits.streamCapacity)
    {ρ : Type} [RandomSource ρ] (r : ρ) :
    ∃ made r', (Mutator.mk png.grammar limits).insert target p e (donors.decisionsOf e) r =
        .ok made r' ∧ made.outcome = .exact ∧
      made.walk.file = t.take p.fileOffset ++ e.file.of d ++ t.drop p.fileOffset := by
  have h := parse_dissected ht
  have hdonor := parse_dissected hd
  obtain ⟨before, c, behind, htail, hdecision, hoffset, hkind⟩ := h.point hp
  have hinner := hdonor.inner he hoptional hfinish
  have hinside := hdonor.mem_tail he (innerKinds_ne_file hinner)
  obtain ⟨hbytes, hlength⟩ := hdonor.piece_lengths he
  obtain ⟨⟨hfront, -⟩, hearlier, -⟩ := h.around htail
  obtain ⟨hback, hlater⟩ := h.onward htail
  obtain ⟨w, hmade⟩ := h.inserted htail (hdonor.piece_fits hinside) hinner hkind
    (by rw [hlength]; exact hstream) (by rw [hbytes, h.file]; exact hfile)
  have hparts : [target.decisions.take p.decisionOffset, donors.decisionsOf e,
      target.decisions.drop p.decisionOffset].flatten = w.decisions := by
    rw [hmade.decisions, List.flatMap_append, List.flatMap_cons, ← hearlier, ← hlater, hdecision]
    simp only [List.flatten_cons, List.flatten_nil, List.append_nil]
    rfl
  have hstart : p.decisionOffset = _ := hdecision.trans (h.decided htail).1
  obtain ⟨r', hrun⟩ := insert_spliced (m := ⟨png.grammar, limits⟩) (grammar_stops (by decide))
    hmade.generated hoptional hp hlength hparts (hmade.met none hstart rfl) r
  refine ⟨_, r', hrun, rfl, ?_⟩
  rw [hmade.dissected.file, List.flatMap_append, List.flatMap_cons, ← hfront, ← hback, h.file,
    hoffset, ← List.append_assoc, ← hdonor.file]
  rfl

theorem png_insert_bytes_stamped :
    ∃ target donors p e made r',
      png.grammar.parse room (imageOf [stamp, label]) = .ok target ∧
      png.grammar.parse room (imageOf [label]) = .ok donors ∧
      p ∈ target.points ∧ p.fileOffset = 33 ∧ e ∈ donors.chunks ∧ e.kind = .text ∧
      (Mutator.mk png.grammar room).insert target p e (donors.decisionsOf e) (Cycle.mk #[1] 0) =
        .ok made r' ∧
      made.outcome = .exact ∧ made.walk.file = imageOf [label, stamp, label] := by
  obtain ⟨target, ht, houtlines, hlength⟩ := parse_stamped_labelled
  obtain ⟨donors, hd, htext⟩ := parse_labelled
  obtain ⟨e, he, hkind, hoptional, hfile, hdecisions⟩ := chunk_of_outline htext
  obtain ⟨signature, header, body, finish, hlayout⟩ := (parse_dissected ht).layout
  have hpoint : ∃ p ∈ target.points, p.fileOffset = header.file.stop := by
    rw [hlayout.points]
    cases body <;> exact ⟨_, List.mem_cons_self, rfl⟩
  obtain ⟨p, hp, hoffset⟩ := hpoint
  rw [hlayout.chunks] at houtlines
  simp only [List.map_cons, outline, List.cons.injEq, Prod.mk.injEq] at houtlines
  obtain ⟨-, -, ⟨-, -, hheader, -⟩, -⟩ := houtlines
  rw [hheader] at hoffset
  obtain ⟨made, r', hrun, hexact, hmade⟩ := png_insert_bytes ht hd hp he hoptional
    (by rw [hkind]; decide) (by rw [hfile]; decide +kernel)
    (by rw [hlength, hdecisions]; decide) (Cycle.mk #[1] 0)
  rw [hfile, hoffset] at hmade
  exact ⟨target, donors, p, e, made, r', ht, hd, hp, hoffset, he, hkind, hrun, hexact,
    hmade.trans (by decide +kernel)⟩

end Inserting

section Deleting

variable {limits : Limits} {t : Bytes} {target : Walk Kind} {c : Chunk Kind}

theorem Dissected.delete_inside {ρ : Type} [RandomSource ρ] (h : Dissected limits t target)
    (hfile : t.length ≤ limits.fileCapacity) (hc : c ∈ target.chunks) (hinner : c.kind ∈ innerKinds)
    (r : ρ) :
    ∃ w r', w.file = t.take c.file.start ++ t.drop c.file.stop ∧
      w.chunks.map roleOf = (target.chunks.filter (· ≠ c)).map roleOf ∧
      (Mutator.mk png.grammar limits).delete target c r = .ok ⟨.delete, w, .exact⟩ r' := by
  obtain ⟨before, behind, htail⟩ := List.append_of_mem (h.mem_tail hc (innerKinds_ne_file hinner))
  have hflags := h.flags hc
  rw [Kind.flags_inner hinner, Prod.mk.injEq] at hflags
  obtain ⟨hoptional, happendable⟩ := hflags
  obtain ⟨⟨hfront, hback⟩, hearlier, hlater⟩ := h.around htail
  obtain ⟨w, hmade⟩ := h.deleted htail hinner (h.file ▸ hfile)
  cases behind with
  | nil =>
    have hkind := (h.behind_nil htail).1 rfl
    rw [hkind] at hinner
    exact absurd hinner (by decide)
  | cons next behind =>
    have hnext : next ∈ target.chunks := by
      rw [h.chunks, htail]
      simp
    have hmet : ∀ x ∈ successor? target c, Watch.Met
        { start := c.decisions.start, kind := some x.kind,
          expectedStop := some (c.decisions.start + x.decisionLength) } w := by
      intro x hx
      rw [h.successor htail] at hx
      cases hx
      have hfound := hmade.met none (h.decided htail).1 rfl
      rw [(h.piece_lengths hnext).2] at hfound
      exact hfound
    have hparts : [target.decisions.take c.decisions.start,
        target.decisions.drop c.decisions.stop].flatten = w.decisions := by
      rw [hmade.decisions, List.flatMap_append, ← hearlier, ← hlater]
      simp
    obtain ⟨r', hrun⟩ := delete_spliced (m := ⟨png.grammar, limits⟩) (grammar_stops (by decide))
      hmade.generated hoptional happendable hparts hmet r
    refine ⟨w, r', ?_, ?_, hrun⟩
    · rw [hmade.dissected.file, List.flatMap_append, ← hfront, ← hback, h.file]
    · have hkept : ∀ x ∈ before ++ next :: behind, x ∈ target.chunks := by
        intro x hx
        have hx' := List.mem_cons_of_mem (root target.file.length target.decisions.length) hx
        rw [← h.others htail] at hx'
        exact (List.mem_filter.1 hx').1
      rw [h.others htail, hmade.dissected.chunks, List.map_cons, List.map_cons, h.roles hkept,
        hmade.dissected.roles fun _ => List.mem_of_mem_tail, List.map_append,
        show w.chunks.tail.map (piece w) = _ from hmade.pieces]
      rfl

/-- A chunk between the header and the end is deleted by deleting its bytes, and the other chunks
stay what they are. Nothing else can be deleted. -/
theorem png_delete_bytes (ht : png.grammar.parse limits t = .ok target)
    (hfile : t.length ≤ limits.fileCapacity) (hc : c ∈ target.chunks) {ρ : Type} [RandomSource ρ]
    (r : ρ) :
    (c.optional = true → c.kind ≠ .finish →
      ∃ made r', (Mutator.mk png.grammar limits).delete target c r = .ok made r' ∧
        made.outcome = .exact ∧
        made.walk.file = t.take c.file.start ++ t.drop c.file.stop ∧
        made.walk.chunks.map roleOf = (target.chunks.filter (· ≠ c)).map roleOf) ∧
    (c.optional = false ∨ c.kind = .finish →
      ∃ cause, (Mutator.mk png.grammar limits).delete target c r =
        .error (.precondition cause) r) := by
  have h := parse_dissected ht
  constructor
  · intro hoptional hfinish
    obtain ⟨w, r', hw, hroles, hrun⟩ :=
      h.delete_inside hfile hc (h.inner hc hoptional hfinish) r
    exact ⟨_, r', hrun, rfl, hw, hroles⟩
  · rintro (hmandatory | hfinish)
    · refine ⟨.mandatory c.label, ?_⟩
      rw [delete, hmandatory]
      rfl
    · obtain ⟨before, behind, htail⟩ := List.append_of_mem
        (h.mem_tail hc (by rw [hfinish]; decide))
      obtain rfl := (h.behind_nil htail).2 hfinish
      have hflags := h.flags hc
      rw [hfinish] at hflags
      obtain ⟨hoptional, happendable⟩ := Prod.mk.inj hflags
      refine ⟨.notDeletable c.label none, ?_⟩
      rw [delete, h.no_successor htail, hoptional, happendable]
      rfl

theorem png_delete_bytes_stamped :
    ∃ target c finish made r' cause,
      png.grammar.parse room (imageOf [stamp, label]) = .ok target ∧
      c ∈ target.chunks ∧ c.kind = .time ∧ finish ∈ target.chunks ∧ finish.kind = .finish ∧
      (Mutator.mk png.grammar room).delete target c (Cycle.mk #[1] 0) = .ok made r' ∧
      made.outcome = .exact ∧ made.walk.file = imageOf [label] ∧
      made.walk.chunks.map roleOf = (target.chunks.filter (· ≠ c)).map roleOf ∧
      (Mutator.mk png.grammar room).delete target finish (Cycle.mk #[1] 0) =
        .error (.precondition cause) (Cycle.mk #[1] 0) := by
  obtain ⟨target, ht, houtlines, -⟩ := parse_stamped_labelled
  have htime : (Kind.time, true, ⟨33, 52⟩, ⟨16, 34⟩) ∈ target.chunks.map outline := by
    rw [houtlines]
    decide
  have hend : (Kind.finish, true, ⟨66, 78⟩, ⟨45, 50⟩) ∈ target.chunks.map outline := by
    rw [houtlines]
    decide
  obtain ⟨c, hc, hkind, hoptional, hfile, -⟩ := chunk_of_outline htime
  obtain ⟨finish, hmem, hfinish, -⟩ := chunk_of_outline hend
  obtain ⟨made, r', hrun, hexact, hmade, hroles⟩ := (png_delete_bytes ht (by decide +kernel) hc
    (Cycle.mk #[1] 0)).1 hoptional (by rw [hkind]; decide)
  obtain ⟨cause, hrefused⟩ := (png_delete_bytes ht (by decide +kernel) hmem
    (Cycle.mk #[1] 0)).2 (Or.inr hfinish)
  rw [hfile] at hmade
  exact ⟨target, c, finish, made, r', cause, ht, hc, hkind, hmem, hfinish, hrun, hexact,
    hmade.trans (by decide +kernel), hroles, hrefused⟩

end Deleting

section Swapping

variable {limits : Limits} {t : Bytes} {target : Walk Kind} {a b : Chunk Kind}
  {before between behind : List (Chunk Kind)}

def exchange {α : Type} (first second : Span) (xs : List α) : List α :=
  xs.take first.start ++ second.of xs ++ Span.of ⟨first.stop, second.start⟩ xs ++ first.of xs ++
    xs.drop second.stop

theorem length_exchange {α : Type} {first second : Span} {xs : List α}
    (hfirst : first.start ≤ first.stop) (horder : first.stop ≤ second.start)
    (hsecond : second.start ≤ second.stop) (hend : second.stop ≤ xs.length) :
    (exchange first second xs).length = xs.length := by
  simp only [exchange, Span.of, List.length_append, List.length_take, List.length_drop]
  omega

theorem Dissected.swap_inside (h : Dissected limits t target)
    (hrow : target.chunks.tail = before ++ a :: (between ++ b :: behind))
    (ha : a.kind ∈ innerKinds) (hb : b.kind ∈ innerKinds)
    (hfile : t.length ≤ limits.fileCapacity) :
    a.file.stop ≤ b.file.start ∧ a.decisions.start < b.decisions.start ∧
    ∃ w, w.file = exchange a.file b.file t ∧ w.file.length = t.length ∧
      ∀ {ρ : Type} [RandomSource ρ] (r : ρ), ∃ r',
        (Mutator.mk png.grammar limits).swapOrdered target a b r = .ok ⟨.swap, w, .exact⟩ r' := by
  have hrow' : target.chunks.tail = (before ++ a :: between) ++ b :: behind := by
    rw [hrow, List.append_assoc, List.cons_append]
  obtain ⟨w, hmade⟩ := h.swapped hrow ha hb (h.file ▸ hfile)
  obtain ⟨⟨hfront, -⟩, hearlier, -⟩ := h.around hrow
  obtain ⟨⟨-, hback⟩, -, hlater⟩ := h.around hrow'
  obtain ⟨-, hlt, hrest⟩ := h.files hrow
  obtain ⟨-, hlt', hrest'⟩ := h.streams hrow
  rw [List.map_append, List.map_cons] at hrest hrest'
  have hbetween := hrest.split.1
  have hbetween' := hrest'.split.1
  have hmiddle := bytes_of_tiles target hbetween
  have hmiddle' := decisions_of_tiles target hbetween'
  have horder := hbetween'.le
  have hw : w.file = exchange a.file b.file t := by
    rw [hmade.dissected.file, exchange]
    simp only [List.flatMap_append, List.flatMap_cons]
    rw [← hfront, hmiddle, ← hback]
    simp only [piece, pieceOf, h.file, List.append_assoc]
  have hparts : [target.decisions.take a.decisions.start, b.decisions.of target.decisions,
      Span.of ⟨a.decisions.stop, b.decisions.start⟩ target.decisions,
      a.decisions.of target.decisions,
      target.decisions.drop b.decisions.stop].flatten = w.decisions := by
    rw [hmade.decisions]
    simp only [List.flatMap_append, List.flatMap_cons]
    rw [← hearlier, hmiddle', ← hlater]
    simp only [piece, pieceOf, List.flatten_cons, List.flatten_nil, List.append_nil]
  have hmet := hmade.met none (h.decided hrow).1 rfl
  refine ⟨hbetween.le, by omega, w, hw, ?_, ?_⟩
  · rw [hw]
    rw [h.file] at hrest
    obtain ⟨-, hlt'', hend⟩ := hrest.split
    exact length_exchange (Nat.le_of_lt hlt) hbetween.le (Nat.le_of_lt hlt'') hend.le
  · intro ρ _ r
    apply swapOrdered_spliced (m := ⟨png.grammar, limits⟩) (grammar_stops (by decide))
      hmade.generated horder rfl rfl rfl hparts hmet
    rw [← List.cons_append, ← List.append_assoc] at hmade
    refine hmade.met none ?_ rfl
    rw [List.flatMap_append, List.flatMap_cons, hmiddle', List.length_append, List.length_append,
      ← (h.decided hrow).1, ← Nat.add_assoc]
    rfl

theorem row_of_mem {cs : List (Chunk Kind)} (ha : a ∈ cs) (hb : b ∈ cs) (hne : a ≠ b) :
    (∃ before between behind, cs = before ++ a :: (between ++ b :: behind)) ∨
      ∃ before between behind, cs = before ++ b :: (between ++ a :: behind) := by
  obtain ⟨front, back, rfl⟩ := List.append_of_mem ha
  rcases List.mem_append.1 hb with hb | hb
  · obtain ⟨before, between, rfl⟩ := List.append_of_mem hb
    exact Or.inr ⟨before, between, back, by rw [List.append_assoc, List.cons_append]⟩
  · obtain ⟨between, behind, rfl⟩ := List.append_of_mem
      ((List.mem_cons.1 hb).resolve_left (Ne.symm hne))
    exact Or.inl ⟨front, between, behind, rfl⟩

/-- Two chunks between the header and the end are swapped by exchanging their bytes, whichever of
them is named first. -/
theorem png_swap_bytes (ht : png.grammar.parse limits t = .ok target)
    (hfile : t.length ≤ limits.fileCapacity) (ha : a ∈ target.chunks) (hb : b ∈ target.chunks)
    (hne : a ≠ b) (hoptional : a.optional = true ∧ b.optional = true)
    (hfinish : a.kind ≠ .finish ∧ b.kind ≠ .finish) {ρ : Type} [RandomSource ρ] (r : ρ) :
    ∃ made r', (Mutator.mk png.grammar limits).swap target a b r = .ok made r' ∧
      made.outcome = .exact ∧
      (a.file.stop ≤ b.file.start ∧ made.walk.file = exchange a.file b.file t ∨
        b.file.stop ≤ a.file.start ∧ made.walk.file = exchange b.file a.file t) ∧
      made.walk.file.length = t.length ∧
      ∀ q : ρ, ∃ made' q', (Mutator.mk png.grammar limits).swap target b a q = .ok made' q' ∧
        made'.outcome = .exact ∧ made'.walk.file = made.walk.file := by
  have h := parse_dissected ht
  have ha' := h.inner ha hoptional.1 hfinish.1
  have hb' := h.inner hb hoptional.2 hfinish.2
  have hcompatible : compatible a b = true := by simp [compatible, hoptional.1, hoptional.2]
  have hcompatible' : compatible b a = true := by simp [compatible, hoptional.1, hoptional.2]
  rcases row_of_mem (h.mem_tail ha (innerKinds_ne_file ha'))
    (h.mem_tail hb (innerKinds_ne_file hb')) hne with
    ⟨before, between, behind, hrow⟩ | ⟨before, between, behind, hrow⟩
  · obtain ⟨horder, hstart, w, hw, hlength, hrun⟩ := h.swap_inside hrow ha' hb' hfile
    obtain ⟨hswap, hswap'⟩ := swap_eq (ρ := ρ) ⟨png.grammar, limits⟩ target
      hcompatible hcompatible' hstart
    rw [hswap, hswap']
    obtain ⟨r', hmade⟩ := hrun r
    refine ⟨_, r', hmade, rfl, Or.inl ⟨horder, hw⟩, hlength, ?_⟩
    intro q
    obtain ⟨q', hmade'⟩ := hrun q
    exact ⟨_, q', hmade', rfl, rfl⟩
  · obtain ⟨horder, hstart, w, hw, hlength, hrun⟩ := h.swap_inside hrow hb' ha' hfile
    obtain ⟨hswap, hswap'⟩ := swap_eq (ρ := ρ) ⟨png.grammar, limits⟩ target
      hcompatible' hcompatible hstart
    rw [hswap, hswap']
    obtain ⟨r', hmade⟩ := hrun r
    refine ⟨_, r', hmade, rfl, Or.inr ⟨horder, hw⟩, hlength, ?_⟩
    intro q
    obtain ⟨q', hmade'⟩ := hrun q
    exact ⟨_, q', hmade', rfl, rfl⟩

theorem png_swap_bytes_stamped :
    ∃ target a b made r',
      png.grammar.parse room (imageOf [stamp, label]) = .ok target ∧
      a ∈ target.chunks ∧ a.kind = .time ∧ b ∈ target.chunks ∧ b.kind = .text ∧
      (Mutator.mk png.grammar room).swap target a b (Cycle.mk #[1] 0) = .ok made r' ∧
      made.outcome = .exact ∧ made.walk.file = imageOf [label, stamp] := by
  obtain ⟨target, ht, houtlines, -⟩ := parse_stamped_labelled
  have htime : (Kind.time, true, ⟨33, 52⟩, ⟨16, 34⟩) ∈ target.chunks.map outline := by
    rw [houtlines]
    decide
  have htext : (Kind.text, true, ⟨52, 66⟩, ⟨34, 45⟩) ∈ target.chunks.map outline := by
    rw [houtlines]
    decide
  obtain ⟨a, ha, hkind, hoptional, hfile, -⟩ := chunk_of_outline htime
  obtain ⟨b, hb, hkind', hoptional', hfile', -⟩ := chunk_of_outline htext
  have hne : a ≠ b := by
    rintro rfl
    rw [hkind] at hkind'
    cases hkind'
  obtain ⟨made, r', hrun, hexact, hmade, -, -⟩ := png_swap_bytes ht (by decide +kernel) ha hb hne
    ⟨hoptional, hoptional'⟩ (by rw [hkind, hkind']; decide) (Cycle.mk #[1] 0)
  rw [hfile, hfile'] at hmade
  rcases hmade with ⟨-, hmade⟩ | ⟨horder, -⟩
  · exact ⟨target, a, b, made, r', ht, ha, hkind, hb, hkind', hrun, hexact,
      hmade.trans (by decide +kernel)⟩
  · exact absurd horder (by decide)

end Swapping

end DecisionWalk.Png
