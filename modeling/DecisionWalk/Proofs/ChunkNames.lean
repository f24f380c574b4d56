import DecisionWalk.Proofs.Naming
import DecisionWalk.Proofs.PngRoundTrip
import DecisionWalk.Proofs.RiffRoundTrip
import DecisionWalk.Proofs.Visiting

/-!
# The names of the chunks of a walk

A walk opens productions under the names that its grammar gives them. However it
goes and wherever it stops, each chunk that it finds is named after the chunk
around it and after its production. Both formats give plain names.
-/

set_option autoImplicit false

namespace DecisionWalk

open Walker

variable {K α β σ : Type}

section Runs

theorem Passes.retitled {s t : State K} (h : Passes s t) :
    Tracker.Retitled s.tracker t.tracker := by
  induction h with
  | trans h1 h2 ih1 ih2 => exact ih1.trans ih2
  | writes s bs hm h => exact .touch _ _
  | marks s bs hm h => exact .touch _ _
  | tosses s e h => exact .lookahead _ _
  | looks offset h ih => exact ih.trans (.lookahead _ _)
  | returns offset h ih => exact ih
  | _ => exact .refl _

def Walker.naming (x : Walker K α) (own : State K → List String)
    (next : α → State K → List String) (s : State K) : List String :=
  own s ++ match x s with
    | .ok a t => next a t
    | .error _ _ => []

namespace Grammar

def settleScopes (step : σ → Walker K (σ ⊕ β)) (scopes : σ → State K → List String)
    (start : Nat) : Nat → σ → State K → List String
  | 0, _ => fun _ => []
  | idle + 1, init => (step init).naming (scopes init) fun
    | .inl again => naming get (fun _ => []) fun t =>
      if start < t.stream.position then fun _ => [] else settleScopes step scopes start idle again
    | .inr _ => fun _ => []

def iterateScopes (step : σ → Walker K (σ ⊕ β)) (scopes : σ → State K → List String) :
    Nat → σ → State K → List String
  | 0, _ => fun _ => []
  | left + 1, init => naming get (fun _ => []) fun s =>
    (settle step s.stream.position idleRounds init).naming
      (settleScopes step scopes s.stream.position idleRounds init) fun
        | .inl again => iterateScopes step scopes left again
        | .inr _ => fun _ => []

def scopes [DecidableEq K] : {α : Type} → Grammar K α → State K → List String
  | _, .done _ => fun _ => []
  | _, .ask request next => request.answer.naming (fun _ => []) fun b => (next b).scopes
  | _, .scope name kind body next =>
    (openScope name kind).naming
      (fun s => if s.tracker.depth < s.tracker.maxDepth then [name] else []) fun depth =>
        body.run.naming body.scopes fun b =>
          (closeScope depth).naming (fun _ => []) fun _ => (next b).scopes
  | _, .withEvil allowed body next =>
    (Walker.withEvil allowed body.run).naming (fun s => body.scopes { s with evil := ⟨allowed⟩ })
      fun b => (next b).scopes
  | _, .loop body init next => naming get (fun _ => []) fun s =>
    (iterate (fun a => (body a).run) (s.stream.capacity + 1) init).naming
      (iterateScopes (fun a => (body a).run) (fun a => (body a).scopes) (s.stream.capacity + 1)
        init) fun b => (next b).scopes
  | _, .stop _ _ => fun _ => []

def scopesFrom [DecidableEq K] (g : Grammar K Unit) (limits : Limits) (origin : Origin)
    (watches : List (Watch K)) : List String :=
  (seed origin).naming (fun _ => []) (fun _ s => g.scopes { s with watches := watches })
    (State.empty limits)

end Grammar

variable {p : String → Prop}

structure Names (p : String → Prop) (x : Walker K α) (own : State K → List String) : Prop where
  named : ∀ (s : State K) (before : List String), s.tracker.Named before →
    (x.after s).tracker.Named (before ++ own s)
  admits : ∀ (s : State K), ∀ name ∈ own s, p name

namespace Names

theorem silent {x : Walker K α} (h : ∀ s, Tracker.Retitled s.tracker (x.after s).tracker) :
    Names p x fun _ => [] where
  named s before hs := by
    rw [List.append_nil]
    exact hs.retitled (h s)
  admits _ _ hmem := nomatch hmem

theorem pure (a : α) : Names p (pure a : Walker K α) fun _ => [] := silent fun _ => .refl _

theorem get : Names p (get : Walker K (State K)) fun _ => [] := silent fun _ => .refl _

theorem throw (e : WalkError) : Names p (throw e : Walker K α) fun _ => [] :=
  silent fun _ => .refl _

theorem answer (r : Request α) : Names p (r.answer : Walker K α) fun _ => [] :=
  silent fun s => (Orderly.answer r s).passes.retitled

theorem closeScope (depth : Nat) : Names p (Walker.closeScope depth : Walker K Unit) fun _ => [] :=
  silent fun s => .closed _ s.stream.position s.image.cursor

theorem openScope [DecidableEq K] {name : String} (h : p name) (kind : K) :
    Names p (Walker.openScope name kind)
      fun s => if s.tracker.depth < s.tracker.maxDepth then [name] else [] where
  named s before hs := by
    by_cases hd : s.tracker.depth < s.tracker.maxDepth
    · rw [if_pos hd, after, Walker.openScope, if_pos hd]
      exact hs.opened name kind s.stream.position s.image.cursor
    · rw [if_neg hd, after, Walker.openScope, if_neg hd, List.append_nil]
      exact hs
  admits s other hmem := by
    split at hmem
    · exact List.mem_singleton.1 hmem ▸ h
    · cases hmem

theorem bind {x : Walker K α} {f : α → Walker K β} {own : State K → List String}
    {next : α → State K → List String} (hx : Names p x own) (hf : ∀ a, Names p (f a) (next a)) :
    Names p (x >>= f) (x.naming own next) where
  named s before hs := by
    have hown := hx.named s before hs
    rw [naming, ← List.append_assoc]
    cases hr : x s with
    | ok a t =>
      rw [after_ok hr] at hown
      rw [after_bind_ok hr]
      exact (hf a).named t _ hown
    | error e t =>
      rw [after_error hr] at hown
      rw [after_bind_error hr, List.append_nil]
      exact hown
  admits s name hmem := by
    rcases List.mem_append.1 hmem with hmem | hmem
    · exact hx.admits s name hmem
    · split at hmem
      · exact (hf _).admits _ name hmem
      · cases hmem

theorem withEvil {x : Walker K α} {own : State K → List String} (hx : Names p x own)
    (allowed : Bool) :
    Names p (Walker.withEvil allowed x) fun s => own { s with evil := ⟨allowed⟩ } where
  named s before hs := by
    have hown := hx.named { s with evil := ⟨allowed⟩ } before hs
    rw [after, Walker.withEvil]
    cases hr : x { s with evil := ⟨allowed⟩ } with
    | ok a t =>
      rw [after_ok hr] at hown
      exact hown
    | error e t =>
      rw [after_error hr] at hown
      exact hown
  admits s := hx.admits { s with evil := ⟨allowed⟩ }

variable {step : σ → Walker K (σ ⊕ β)} {scopes : σ → State K → List String}

theorem settle (hstep : ∀ a, Names p (step a) (scopes a)) (start idle : Nat) (a : σ) :
    Names p (Grammar.settle step start idle a)
      (Grammar.settleScopes step scopes start idle a) := by
  induction idle generalizing a with
  | zero => exact throw _
  | succ idle ih =>
    rw [settle_succ]
    refine (hstep a).bind fun r => ?_
    cases r with
    | inr b => exact pure _
    | inl again =>
      refine get.bind fun t => ?_
      by_cases hmoved : start < t.stream.position
      · rw [if_pos hmoved, if_pos hmoved]
        exact pure _
      · rw [if_neg hmoved, if_neg hmoved]
        exact ih again

theorem iterate (hstep : ∀ a, Names p (step a) (scopes a)) (left : Nat) (a : σ) :
    Names p (Grammar.iterate step left a) (Grammar.iterateScopes step scopes left a) := by
  induction left generalizing a with
  | zero => exact throw _
  | succ left ih =>
    rw [iterate_get]
    refine get.bind fun s => (settle hstep s.stream.position Grammar.idleRounds a).bind fun r => ?_
    cases r with
    | inr b => exact pure b
    | inl again => exact ih again

end Names

namespace Grammar

theorem run_names [DecidableEq K] {g : Grammar K α} (hg : g.ScopesIn p) :
    Names p g.run g.scopes := by
  -- Only opening a production names anything, so each case puts its parts together by `bind`.
  induction g with
  | done a => exact .pure a
  | ask request next ih => exact (Names.answer request).bind fun b => ih b (hg b)
  | scope name kind body next ihb ih =>
    exact (Names.openScope hg.1 kind).bind fun depth => (ihb hg.2.1).bind fun b =>
      (Names.closeScope depth).bind fun _ => ih b (hg.2.2 b)
  | withEvil allowed body next ihb ih =>
    exact ((ihb hg.1).withEvil allowed).bind fun b => ih b (hg.2 b)
  | loop body init next ihb ih =>
    exact Names.get.bind fun s => (Names.iterate (fun a => ihb a (hg.1 a)) _ init).bind fun b =>
      ih b (hg.2 b)
  | stop code reason => exact .throw _

/-- The chunks of a walk that succeeds are those of a tracker that named them. -/
theorem runFrom_named [DecidableEq K] {g : Grammar K Unit} (hg : g.ScopesIn p) {limits : Limits}
    {origin : Origin} {watches ws : List (Watch K)} {w : Walk K}
    (h : (g.runFrom limits origin watches).outcome = .ok (w, ws)) :
    (∃ t : Tracker K, t.Named (g.scopesFrom limits origin watches) ∧
      w.chunks = t.chunks.toList) ∧ ∀ name ∈ g.scopesFrom limits origin watches, p name := by
  rw [runFrom] at h
  cases hseed : seed origin (State.empty limits : State K) with
  | error e s =>
    rw [hseed] at h
    cases h
  | ok u seeded =>
    rw [hseed] at h
    obtain ⟨o, t, hrun, -, hfinish⟩ := concluded h
    obtain ⟨-, hw⟩ := (State.finish_iff _ _).1 hfinish
    have hscopes : g.scopesFrom limits origin watches =
        g.scopes { seeded with watches := watches } := by
      rw [scopesFrom, naming, hseed]
      rfl
    have hnames := run_names hg
    have hempty : ({ seeded with watches := watches } : State K).tracker.Named [] := by
      show seeded.tracker.Named []
      rw [(seed_start hseed).1]
      exact .empty _
    have hnamed := hnames.named _ _ hempty
    have hend : g.run.after { seeded with watches := watches } = t := by
      rw [after, hrun]
      cases o <;> rfl
    rw [hend, List.nil_append, ← hscopes] at hnamed
    cases hw
    exact ⟨⟨_, hnamed.retitled (.closeAll _ t.stream.position t.image.cursor), rfl⟩,
      hscopes ▸ hnames.admits _⟩

end Grammar

def Walk.ownName (w : Walk K) (scopes : List String) (i : Nat) (c : Chunk K) (scope : String) :
    String :=
  let earlier := (((w.chunks.map Chunk.parent).zip scopes).take i).count (c.parent, scope)
  if earlier = 0 then scope else scope ++ "[" ++ toString earlier ++ "]"

/-- The chunks are named after productions called `scopes`: each by the name of the chunk around
it, if there is one, a dot, and its own name. -/
structure Walk.NamedAfter (w : Walk K) (scopes : List String) : Prop where
  length : w.chunks.length = scopes.length
  root : ∀ (i : Nat) (c : Chunk K) (scope : String), w.chunks[i]? = some c →
    scopes[i]? = some scope → c.parent = none → c.name = w.ownName scopes i c scope
  inside : ∀ (i j : Nat) (c : Chunk K) (scope : String), w.chunks[i]? = some c →
    scopes[i]? = some scope → c.parent = some j → j < i ∧ ∃ outer, w.chunks[j]? = some outer ∧
      c.name = outer.name ++ "." ++ w.ownName scopes i c scope

theorem Tracker.Named.walk {t : Tracker K} {scopes : List String} (h : t.Named scopes)
    {w : Walk K} (hw : w.chunks = t.chunks.toList) : w.NamedAfter scopes := by
  have hnames : w.chunks.map Chunk.name = t.names := by
    rw [hw, Tracker.names, Tracker.tags, List.map_map]
    rfl
  have hentries : (w.chunks.map Chunk.parent).zip scopes = t.entries scopes := by
    rw [hw, Tracker.entries, Tracker.tags, List.map_map]
    rfl
  have hget : ∀ (i : Nat) (c : Chunk K) (scope : String), w.chunks[i]? = some c →
      scopes[i]? = some scope → (∀ j, c.parent = some j → j < i) ∧
        c.name = lead t.names c.parent ++ w.ownName scopes i c scope := by
    intro i c scope hc hscope
    have hentry : (t.entries scopes)[i]? = some (c.parent, scope) := by
      rw [← hentries, List.getElem?_zip_eq_some, List.getElem?_map, hc]
      exact ⟨rfl, hscope⟩
    obtain ⟨hlt, hname⟩ := h.spelled.get hentry
    rw [← hnames, List.getElem?_map, hc, hnames, ← hentries] at hname
    exact ⟨hlt, Option.some.inj hname⟩
  refine ⟨?_, ?_, ?_⟩
  · rw [hw, ← h.length, Tracker.tags, List.length_map]
  · intro i c scope hc hscope hparent
    rw [(hget i c scope hc hscope).2, hparent]
    exact String.empty_append
  · intro i j c scope hc hscope hparent
    obtain ⟨hlt, hname⟩ := hget i c scope hc hscope
    have hj : j < w.chunks.length :=
      Nat.lt_trans (hlt j hparent) (List.getElem?_eq_some_iff.1 hc).1
    refine ⟨hlt j hparent, w.chunks[j], List.getElem?_eq_getElem hj, ?_⟩
    rw [hname, hparent, lead, ← hnames, List.getElem?_map, List.getElem?_eq_getElem hj]
    rfl

end Runs

section Walks

open Grammar

/-- In every walk that succeeds, chunks are named after the chunks around them and after the
productions that they come from. Where a grammar gives its productions plain names, as both formats
do, no two chunks have the same name. -/
theorem Grammar.chunk_names_unique :
    (∀ {K : Type} [DecidableEq K] (g : Grammar K Unit), g.ScopesIn PlainName →
      ∀ (limits : Limits) (origin : Origin) (watches ws : List (Watch K)) (w : Walk K),
        (g.runFrom limits origin watches).outcome = .ok (w, ws) →
          (w.chunks.map Chunk.name).Nodup ∧
            w.NamedAfter (g.scopesFrom limits origin watches)) ∧
      png.grammar.ScopesIn PlainName ∧ riff.grammar.ScopesIn PlainName := by
  refine ⟨?_, Png.grammar_within.scopes (by decide), Riff.grammar_within.scopes (by decide)⟩
  intro K _ g hg limits origin watches ws w h
  obtain ⟨⟨t, hnamed, hw⟩, hplain⟩ := runFrom_named hg h
  have hdiffer : t.names.Nodup := by
    apply hnamed.spelled.nodup
    intro entry hentry
    exact hplain _ (List.of_mem_zip hentry).2
  refine ⟨?_, hnamed.walk hw⟩
  rw [Tracker.names, Tracker.tags, ← hw, List.map_map] at hdiffer
  exact hdiffer

def fieldRecords (count : Nat) : Grammar Unit Unit :=
  repeatFrom count fun left =>
    if left = 0 then .done (.inr ())
    else .scope "record" () (.scope "field" () (.ask (.bytes 1) .done) fun _ =>
      .scope "field" () (.ask (.bytes 1) .done) .done) fun _ => .done (.inl (left - 1))

/-- Fields are counted inside each record, and records on their own. -/
theorem Grammar.chunk_names_unique_records :
    ∃ w ws, ((fieldRecords 2).runFrom {} (.input [4, 7, 9, 5]) []).outcome = .ok (w, ws) ∧
      w.chunks.map Chunk.name = ["record", "record.field", "record.field[1]",
        "record[1]", "record[1].field", "record[1].field[1]"] ∧
      (fieldRecords 2).scopesFrom {} (.input [4, 7, 9, 5]) [] =
        ["record", "field", "field", "record", "field", "field"] ∧
      (w.chunks.map Chunk.name).Nodup ∧
      w.NamedAfter ["record", "field", "field", "record", "field", "field"] := by
  have hplain : (fieldRecords 2).ScopesIn PlainName := by
    refine ⟨fun left => ?_, fun _ => trivial⟩
    dsimp only
    split
    · trivial
    · exact ⟨by decide, ⟨by decide, fun _ => trivial, fun _ =>
        ⟨by decide, fun _ => trivial, fun _ => trivial⟩⟩, fun _ => trivial⟩
  have hscopes : (fieldRecords 2).scopesFrom {} (.input [4, 7, 9, 5]) [] =
      ["record", "field", "field", "record", "field", "field"] := by decide +kernel
  have hrun : ((fieldRecords 2).runFrom {} (.input [4, 7, 9, 5]) []).outcome.toOption.any
      (fun v => v.1.chunks.map Chunk.name == ["record", "record.field", "record.field[1]",
        "record[1]", "record[1].field", "record[1].field[1]"]) = true := by
    decide +kernel
  obtain ⟨⟨w, ws⟩, h, hw⟩ := ok_of_any hrun
  obtain ⟨hdiffer, hnamed⟩ := chunk_names_unique.1 (fieldRecords 2) hplain {} _ [] ws w h
  exact ⟨w, ws, h, eq_of_beq hw, hscopes, hdiffer, hscopes ▸ hnamed⟩

end Walks

end DecisionWalk
