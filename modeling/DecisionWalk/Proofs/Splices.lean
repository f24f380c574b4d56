import DecisionWalk.Mutation.Splice
import DecisionWalk.Proofs.Replaying
import DecisionWalk.Proofs.Watching

/-!
# Splices that come out exactly

A mutation puts decisions together and fills the stream up with random ones. When
the decisions are all those of some walk, the random ones are never read: the
mutation ends in that walk, whatever the random source gives. It is exact when
every watch finds its chunk and the chunk stops where the watch expects it to.
-/

set_option autoImplicit false

namespace DecisionWalk

variable {K : Type} [DecidableEq K]

theorem Grammar.generate_padded {g : Grammar K Unit} (hg : g.StopsIn (· ≠ 0)) {limits : Limits}
    {w : Walk K} (h : g.generate limits w.decisions = .ok w) {tail : Bytes}
    (htail : w.decisions.length + tail.length ≤ limits.streamCapacity) :
    g.generate limits (w.decisions ++ tail) = .ok w :=
  (replay_retold (replay_shows hg h (List.forall_mem_nil _))).2 tail htail

structure Watch.Met (watch : Watch K) (w : Walk K) : Prop where
  fresh : watch.Fresh
  found : ∃ c, w.chunks.find? watch.fits = some c ∧ watch.expectedStop = some c.decisions.stop

def outline (c : Chunk K) : K × Bool × Span × Span := (c.kind, c.optional, c.file, c.decisions)

omit [DecidableEq K] in
theorem chunk_of_outline {w : Walk K} {kind : K} {optional : Bool} {file decisions : Span}
    (h : (kind, optional, file, decisions) ∈ w.chunks.map outline) :
    ∃ c ∈ w.chunks, c.kind = kind ∧ c.optional = optional ∧ c.file = file ∧
      c.decisions = decisions := by
  obtain ⟨c, hc, houtline⟩ := List.mem_map.1 h
  simp only [outline, Prod.mk.injEq] at houtline
  exact ⟨c, hc, houtline⟩

theorem parses_of_decide {g : Grammar K Unit} {limits : Limits} {input : Bytes}
    (P : Walk K → Prop) [DecidablePred P]
    (h : (g.parse limits input).toOption.any (fun w => decide (P w)) = true) :
    ∃ w, g.parse limits input = .ok w ∧ P w := by
  obtain ⟨w, hw, hp⟩ := ok_of_any h
  exact ⟨w, hw, of_decide_eq_true hp⟩

namespace Mutator

theorem verdict_exact {w : Walk K} {watches : List (Watch K)} (h : ∀ v ∈ watches, v.Met w) :
    verdict (watches.map w.shows) .exact = .ok .exact := by
  induction watches with
  | nil => rfl
  | cons v rest ih =>
    obtain ⟨c, hfind, hexpected⟩ := (h v List.mem_cons_self).found
    have hshown : w.shows v = { v with observedStop := some c.decisions.stop } := by
      rw [Walk.shows, hfind]
    rw [List.map_cons, hshown, verdict]
    simp only [hexpected, Int.sub_self, ne_eq, not_true_eq_false, false_and, if_false]
    exact ih fun u hu => h u (List.mem_cons_of_mem v hu)

omit [DecidableEq K] in
theorem verdict_unexpecting {watches : List (Watch K)} {before outcome : SpliceOutcome}
    (hnone : ∀ w ∈ watches, w.expectedStop = none) (h : verdict watches before = .ok outcome) :
    outcome = before := by
  induction watches with
  | nil =>
    cases h
    rfl
  | cons w rest ih =>
    rw [verdict] at h
    split at h
    case h_1 => cases h
    case h_2 =>
      rw [hnone w List.mem_cons_self] at h
      exact ih (fun v hv => hnone v (List.mem_cons_of_mem w hv)) h

theorem regenerate_exact {m : Mutator K} (hg : m.grammar.StopsIn (· ≠ 0)) {w : Walk K}
    (h : m.grammar.generate m.limits w.decisions = .ok w) {watches : List (Watch K)}
    (hmet : ∀ v ∈ watches, v.Met w) {tail : Bytes}
    (htail : w.decisions.length + tail.length ≤ m.limits.streamCapacity) (operation : Operation) :
    m.regenerate operation (w.decisions ++ tail) watches = .ok ⟨operation, w, .exact⟩ := by
  have hreplay := Grammar.replay_shows hg (Grammar.generate_padded hg h htail)
    fun v hv => (hmet v hv).fresh
  simp only [regenerate, hreplay, verdict_exact hmet]

variable {ρ : Type} [RandomSource ρ]

omit [DecidableEq K] in
theorem splice_run (m : Mutator K) (parts : List Bytes) (r : ρ)
    (hfits : parts.flatten.length ≤ m.limits.streamCapacity) :
    ∃ tail r', (m.splice parts : Mutating ρ Bytes) r = .ok (parts.flatten ++ tail) r' ∧
      parts.flatten.length + tail.length = m.limits.streamCapacity := by
  let filled := RandomSource.fill r (m.limits.streamCapacity - parts.flatten.length)
  refine ⟨filled.1, filled.2, ?_, ?_⟩
  · rw [splice]
    dsimp only
    rw [if_neg (by omega)]
    rfl
  · rw [RandomSource.length_fill, Nat.add_sub_cancel' hfits]

section Successes

variable {α β : Type} {m : Mutator K} {target : Walk K} {chunk : Chunk K} {made : Mutation K}
  {operation : Operation} {parts : List Bytes} {decisions : Bytes} {watches : List (Watch K)}
  {r r' : ρ}

omit [RandomSource ρ] in
theorem mutating_ok {x : Mutating ρ α} {f : α → Mutating ρ β} {b : β}
    (h : (x >>= f) r = .ok b r') : ∃ a s, x r = .ok a s ∧ f a s = .ok b r' := by
  replace h : EStateM.bind x f r = .ok b r' := h
  rw [EStateM.bind] at h
  split at h
  case h_1 a s hx => exact ⟨a, s, hx, h⟩
  case h_2 => cases h

omit [RandomSource ρ] in
theorem unless_refused {p : Prop} [Decidable p] {cause : Precondition} {y : Mutating ρ β} {b : β}
    (h : (if p then (refuse cause : Mutating ρ PUnit) >>= fun _ => y else y) r = .ok b r') :
    ¬ p ∧ y r = .ok b r' := by
  by_cases hp : p
  · rw [if_pos hp] at h
    obtain ⟨_, _, hrefused, -⟩ := mutating_ok h
    cases hrefused
  · rw [if_neg hp] at h
    exact ⟨hp, h⟩

omit [DecidableEq K] in
theorem splice_ok (h : (m.splice parts : Mutating ρ Bytes) r = .ok decisions r') :
    parts.flatten <+: decisions ∧ decisions.length = m.limits.streamCapacity := by
  by_cases hfits : parts.flatten.length ≤ m.limits.streamCapacity
  · obtain ⟨tail, r'', hrun, hlength⟩ := m.splice_run parts r hfits
    rw [hrun] at h
    cases h
    exact ⟨List.prefix_append _ _, by rw [List.length_append, hlength]⟩
  · rw [splice] at h
    dsimp only at h
    rw [if_pos (by omega)] at h
    cases h

omit [RandomSource ρ] in
/-- A mutation that is made is a replay, and the watches behind it tell the outcome. -/
theorem regenerate_ok (h : (MonadExcept.ofExcept (m.regenerate operation decisions watches) :
    Mutating ρ (Mutation K)) r = .ok made r') :
    ∃ watches', m.grammar.replay m.limits decisions watches = .ok (made.walk, watches') ∧
      verdict watches' .exact = .ok made.outcome := by
  cases hx : m.regenerate operation decisions watches with
  | error e =>
    rw [hx] at h
    cases h
  | ok result =>
    rw [hx] at h
    cases h
    rw [regenerate] at hx
    split at hx
    case h_1 => cases hx
    case h_2 walk watches' hreplay =>
      split at hx
      case h_1 => cases hx
      case h_2 outcome hverdict =>
        cases hx
        exact ⟨watches', hreplay, hverdict⟩

theorem abstract_ok (h : (m.abstractChunk target chunk : Mutating ρ (Mutation K)) r = .ok made r') :
    ∃ decisions rest w', target.decisions.take chunk.decisions.start <+: decisions ∧
      m.grammar.replay m.limits decisions
        [{ start := chunk.decisions.start, kind := if chunk.optional then none else some chunk.kind,
           depth := some chunk.depth,
           restore := some (target.decisions.drop chunk.decisions.stop ++ rest) }] =
        .ok (made.walk, w') ∧ verdict w' .exact = .ok made.outcome := by
  rw [abstractChunk] at h
  obtain ⟨decisions, r1, hsplice, h⟩ := mutating_ok h
  obtain ⟨rest, r2, -, h⟩ := mutating_ok h
  obtain ⟨w', hreplay, hverdict⟩ := regenerate_ok h
  obtain ⟨hparts, -⟩ := splice_ok hsplice
  rw [List.flatten_cons, List.flatten_nil, List.append_nil] at hparts
  exact ⟨decisions, rest, w', hparts, hreplay, hverdict⟩

/-- A chunk that is deleted is optional, and the walk can go on past it: the decisions around it are
replayed, and its successor is watched. -/
theorem delete_ok [ProductionKind K]
    (h : (m.delete target chunk : Mutating ρ (Mutation K)) r = .ok made r') :
    chunk.optional = true ∧
      (chunk.appendable = true ∨ (successor? target chunk).any (·.optional) = true) ∧
      ∃ decisions watches', target.decisions.take chunk.decisions.start ++
          target.decisions.drop chunk.decisions.stop <+: decisions ∧
        m.grammar.replay m.limits decisions ((successor? target chunk).toList.map fun next =>
          { start := chunk.decisions.start, kind := some next.kind,
            expectedStop := some (chunk.decisions.start + next.decisionLength) }) =
          .ok (made.walk, watches') ∧ verdict watches' .exact = .ok made.outcome := by
  rw [delete] at h
  obtain ⟨hoptional, h⟩ := unless_refused h
  obtain ⟨hgap, h⟩ := unless_refused h
  obtain ⟨decisions, r1, hsplice, h⟩ := mutating_ok h
  obtain ⟨watches', hreplay, hverdict⟩ := regenerate_ok h
  obtain ⟨hparts, -⟩ := splice_ok hsplice
  rw [List.flatten_cons, List.flatten_cons, List.flatten_nil, List.append_nil] at hparts
  refine ⟨by simpa using hoptional, ?_, decisions, watches', hparts, hreplay, hverdict⟩
  cases happendable : chunk.appendable with
  | true => exact Or.inl rfl
  | false =>
    right
    simpa [happendable] using hgap

end Successes

section Operations

variable {m : Mutator K} {target w : Walk K} {chunk donor : Chunk K} {donorDecisions : Bytes}

/-- Decisions that make up those of a walk end in that walk. -/
theorem spliced (hg : m.grammar.StopsIn (· ≠ 0))
    (h : m.grammar.generate m.limits w.decisions = .ok w) {watches : List (Watch K)}
    (hmet : ∀ v ∈ watches, v.Met w) {parts : List Bytes} (hparts : parts.flatten = w.decisions)
    (operation : Operation) (r : ρ) :
    ∃ r', (m.splice parts >>= fun decisions => MonadExcept.ofExcept
        (m.regenerate operation decisions watches) : Mutating ρ (Mutation K)) r =
      .ok ⟨operation, w, .exact⟩ r' := by
  obtain ⟨tail, r', hsplice, hlength⟩ := m.splice_run parts r
    (by rw [hparts]; exact Grammar.generate_fits h)
  rw [hparts] at hsplice hlength
  refine ⟨r', ?_⟩
  show EStateM.bind _ _ r = _
  rw [EStateM.bind, hsplice]
  dsimp only
  rw [regenerate_exact hg h hmet (Nat.le_of_eq hlength)]
  rfl

variable [ProductionKind K]

theorem replace_spliced (hg : m.grammar.StopsIn (· ≠ 0))
    (h : m.grammar.generate m.limits w.decisions = .ok w)
    (hcompatible : compatible chunk donor = true)
    (hlength : donorDecisions.length = donor.decisionLength)
    (hparts : [target.decisions.take chunk.decisions.start, donorDecisions,
      target.decisions.drop chunk.decisions.stop].flatten = w.decisions)
    (hmet : Watch.Met
      { start := chunk.decisions.start, kind := some donor.kind, depth := some chunk.depth,
        expectedStop := some (chunk.decisions.start + donorDecisions.length) } w) (r : ρ) :
    ∃ r', m.replace target chunk donor donorDecisions r = .ok ⟨.replace, w, .exact⟩ r' := by
  rw [replace, hcompatible, checkDonor, if_pos hlength]
  exact spliced hg h (List.forall_mem_singleton.2 hmet) hparts .replace r

theorem insert_spliced {point : InsertionPoint K} (hg : m.grammar.StopsIn (· ≠ 0))
    (h : m.grammar.generate m.limits w.decisions = .ok w) (hoptional : donor.optional = true)
    (hpoint : point ∈ target.points)
    (hlength : donorDecisions.length = donor.decisionLength)
    (hparts : [target.decisions.take point.decisionOffset, donorDecisions,
      target.decisions.drop point.decisionOffset].flatten = w.decisions)
    (hmet : Watch.Met
      { start := point.decisionOffset, kind := some donor.kind,
        expectedStop := some (point.decisionOffset + donorDecisions.length) } w) (r : ρ) :
    ∃ r', m.insert target point donor donorDecisions r = .ok ⟨.insert, w, .exact⟩ r' := by
  rw [insert, hoptional, List.contains_iff_mem.2 hpoint, checkDonor, if_pos hlength]
  exact spliced hg h (List.forall_mem_singleton.2 hmet) hparts .insert r

theorem delete_spliced (hg : m.grammar.StopsIn (· ≠ 0))
    (h : m.grammar.generate m.limits w.decisions = .ok w) (hoptional : chunk.optional = true)
    (happendable : chunk.appendable = true)
    (hparts : [target.decisions.take chunk.decisions.start,
      target.decisions.drop chunk.decisions.stop].flatten = w.decisions)
    (hmet : ∀ next ∈ successor? target chunk, Watch.Met
      { start := chunk.decisions.start, kind := some next.kind,
        expectedStop := some (chunk.decisions.start + next.decisionLength) } w) (r : ρ) :
    ∃ r', m.delete target chunk r = .ok ⟨.delete, w, .exact⟩ r' := by
  rw [delete, hoptional, happendable]
  refine spliced hg h ?_ hparts .delete r
  intro v hv
  obtain ⟨next, hnext, rfl⟩ := List.mem_map.1 hv
  exact hmet next (Option.mem_toList.1 hnext)

theorem swapOrdered_spliced {first second : Chunk K} {earlier middle later : Bytes}
    (hg : m.grammar.StopsIn (· ≠ 0)) (h : m.grammar.generate m.limits w.decisions = .ok w)
    (horder : first.decisions.stop ≤ second.decisions.start)
    (hlater : second.decisions.of target.decisions = later)
    (hmiddle : Span.of ⟨first.decisions.stop, second.decisions.start⟩ target.decisions = middle)
    (hearlier : first.decisions.of target.decisions = earlier)
    (hparts : [target.decisions.take first.decisions.start, later, middle, earlier,
      target.decisions.drop second.decisions.stop].flatten = w.decisions)
    (hmet : Watch.Met
      { start := first.decisions.start, kind := some second.kind,
        expectedStop := some (first.decisions.start + later.length) } w)
    (hmet' : Watch.Met
      { start := first.decisions.start + later.length + middle.length, kind := some first.kind,
        expectedStop := some (first.decisions.start + later.length + middle.length +
          earlier.length) } w) (r : ρ) :
    ∃ r', m.swapOrdered target first second r = .ok ⟨.swap, w, .exact⟩ r' := by
  subst hlater hmiddle hearlier
  rw [swapOrdered, if_neg (by omega)]
  refine spliced hg h ?_ hparts .swap r
  intro v hv
  rcases List.mem_cons.1 hv with rfl | hv
  · exact hmet
  · rw [List.mem_singleton.1 hv]
    exact hmet'

theorem swap_eq (m : Mutator K) (target : Walk K) {a b : Chunk K}
    (hcompatible : compatible a b = true) (hcompatible' : compatible b a = true)
    (hstart : a.decisions.start < b.decisions.start) :
    (m.swap target a b : Mutating ρ (Mutation K)) = m.swapOrdered target a b ∧
      (m.swap target b a : Mutating ρ (Mutation K)) = m.swapOrdered target a b := by
  constructor
  · rw [swap, hcompatible, if_pos (Nat.le_of_lt hstart)]
    rfl
  · rw [swap, hcompatible', if_neg (Nat.not_le.2 hstart)]
    rfl

end Operations

omit [RandomSource ρ] in
/-- That a chunk of a file can be mutated, and what comes of it, is found by mutating it. -/
theorem mutates_of_decide (m : Mutator K)
    (mutate : Walk K → Chunk K → Mutating ρ (Mutation K)) (input : Bytes) (slot : Nat) (r : ρ)
    (P : Walk K → Chunk K → Mutation K → Prop) [∀ w c made, Decidable (P w c made)]
    (h : (m.grammar.parse m.limits input).toOption.any (fun w => w.chunks[slot]?.any fun c =>
      match mutate w c r with
      | .ok made _ => decide (P w c made)
      | .error _ _ => false) = true) :
    ∃ w c made r', m.grammar.parse m.limits input = .ok w ∧ c ∈ w.chunks ∧
      mutate w c r = .ok made r' ∧ P w c made := by
  obtain ⟨w, hw, h⟩ := ok_of_any h
  obtain ⟨c, hc, h⟩ := (Option.any_eq_true _ _).1 h
  cases hx : mutate w c r with
  | ok made r' =>
    rw [hx] at h
    exact ⟨w, c, made, r', hw, List.mem_of_getElem? hc, hx, of_decide_eq_true h⟩
  | error e r' =>
    rw [hx] at h
    cases h

end Mutator

end DecisionWalk
