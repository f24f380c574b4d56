import DecisionWalk.Proofs.Sequential
import DecisionWalk.Script.Meaning

/-!
# Sequential scripts

A script is sequential when its calls are, whatever its scopes, loops and
branches. Such a script is walked alike in both directions.
-/

set_option autoImplicit false

namespace DecisionWalk

open Grammar

variable {K α β : Type} {m : Mode} {q : {β : Type} → Request β → Prop}

theorem Grammar.bind_bind {γ : Type} (g : Grammar K α) (f : α → Grammar K β)
    (h : β → Grammar K γ) : (g >>= f) >>= h = g >>= fun a => f a >>= h := by
  show (g.bind f).bind h = g.bind fun a => (f a).bind h
  induction g with
  | done a => rfl
  | ask request next ih => simp only [Grammar.bind, ih]
  | scope name kind body next _ ih => simp only [Grammar.bind, ih]
  | withEvil allowed body next _ ih => simp only [Grammar.bind, ih]
  | loop body init next _ ih => simp only [Grammar.bind, ih]
  | stop code reason => rfl

namespace Script

def Expr.sequential : Expr → Bool
  | .sum a b | .difference a b => a.sequential && b.sequential
  | .remaining => false
  | .literal _ | .named _ | .tell | .fileSize => true

def Derivation.sequential : Derivation → Bool
  | .nowhere => true
  | .computed e | .fromField _ e => e.sequential

def Call.sequential : Call → Bool
  | .uint e | .uintFull e | .uintKnown e _ | .bytes e | .bytesKnown e _ | .string e
  | .cstring e => e.sequential
  | .uintComputed a b | .checksum32 a b | .checksum16 a b => a.sequential && b.sequential
  | .count most derivation => most.sequential && derivation.sequential
  | .endOfFile _ | .setEvil _ | .setEndian _ => true
  | .seek _ | .skip _ | .reserve _ | .patch _ _ | .lookUInt _ _ _ | .lookBytes _ _ _
  | .emit _ => false

def Call.shown : Call → Bool
  | .endOfFile _ => false
  | .count _ (.computed _) => true
  | .count _ _ => false
  | _ => true

def Block.all (expr : Expr → Bool) (call : Call → Bool) : Block → Bool
  | .done | .stop _ _ | .leave => true
  | .call _ command _ rest => call command && rest.all expr call
  | .scope _ _ body rest | .withEvil _ body rest | .loop body rest =>
    body.all expr call && rest.all expr call
  | .times count body rest => expr count && (body.all expr call && rest.all expr call)
  | .branch _ _ yes no rest =>
    yes.all expr call && (no.all expr call && rest.all expr call)

def Block.sequential (b : Block) : Bool := b.all Expr.sequential Call.sequential

def Block.shown (b : Block) : Bool :=
  b.all Expr.sequential fun c => c.sequential && c.shown

theorem Expr.meaning_only (env : Env) (e : Expr) (h : e.sequential = true) :
    (e.meaning env).Only (Request.Serial m) := by
  induction e with
  | literal n => exact only_pure _
  | named name => exact only_pure _
  | sum a b iha ihb =>
    obtain ⟨ha, hb⟩ := Bool.and_eq_true_iff.1 h
    exact only_bind (iha ha) fun _ => only_bind (ihb hb) fun _ => only_pure _
  | difference a b iha ihb =>
    obtain ⟨ha, hb⟩ := Bool.and_eq_true_iff.1 h
    exact only_bind (iha ha) fun _ => only_bind (ihb hb) fun _ => only_pure _
  | tell => exact only_request trivial
  | fileSize => exact only_request trivial
  | remaining => cases h

theorem Derivation.meaning_only (env : Env) (d : Derivation) (h : d.sequential = true) :
    (d.meaning env).Only (Request.Serial m) := by
  cases d with
  | nowhere => exact only_pure _
  | computed e => exact only_bind (e.meaning_only env h) fun _ => only_pure _
  | fromField name less => exact only_bind (less.meaning_only env h) fun _ => only_pure _

theorem asked_only {r : Request α} (h : r.Serial m) (f : α → Value) :
    (do pure (f (← request r)) : Grammar String Value).Only (Request.Serial m) :=
  only_bind (only_request h) fun _ => only_pure _

theorem Call.count_only (env : Env) {most : Expr} {d : Derivation} (hmost : most.sequential = true)
    (hd : d.sequential = true) (hm : m = .generate → (Call.count most d).shown = true) :
    ((Call.count most d).meaning env).Only (Request.Serial m) := by
  apply only_bind (most.meaning_only env hmost)
  intro n
  cases d with
  | computed e =>
    rw [Derivation.meaning, bind_bind]
    apply only_bind (e.meaning_only env hd)
    intro x
    exact asked_only (r := .count n (some x)) (fun _ => Option.some_ne_none x) _
  | nowhere =>
    exact only_bind (Derivation.meaning_only env _ hd) fun x =>
      asked_only (r := .count n x) (fun hg => nomatch hm hg) _
  | fromField name less =>
    exact only_bind (Derivation.meaning_only env _ hd) fun x =>
      asked_only (r := .count n x) (fun hg => nomatch hm hg) _

theorem Call.meaning_only (env : Env) (c : Call) (h : c.sequential = true)
    (hm : m = .generate → c.shown = true) : (c.meaning env).Only (Request.Serial m) := by
  cases c with
  | uint e => exact only_bind (e.meaning_only env h) fun w => asked_only (r := .uint w) trivial _
  | uintFull e =>
    exact only_bind (e.meaning_only env h) fun w => asked_only (r := .uintFull w) trivial _
  | uintKnown e known =>
    exact only_bind (e.meaning_only env h) fun w => asked_only (r := .uintKnown w known) trivial _
  | uintComputed a b =>
    obtain ⟨ha, hb⟩ := Bool.and_eq_true_iff.1 h
    exact only_bind (a.meaning_only env ha) fun w => only_bind (b.meaning_only env hb) fun v =>
      asked_only (r := .uintKnown w [v]) trivial _
  | bytes e => exact only_bind (e.meaning_only env h) fun n => asked_only (r := .bytes n) trivial _
  | bytesKnown e known =>
    exact only_bind (e.meaning_only env h) fun n => asked_only (r := .bytesKnown n known) trivial _
  | string e =>
    exact only_bind (e.meaning_only env h) fun n => asked_only (r := .string n) trivial _
  | cstring e =>
    exact only_bind (e.meaning_only env h) fun n => asked_only (r := .cstring n) trivial _
  | count most d =>
    obtain ⟨hmost, hd⟩ := Bool.and_eq_true_iff.1 h
    exact count_only env hmost hd hm
  | endOfFile threshold =>
    have hparse : m = .parse := by
      cases m with
      | parse => rfl
      | generate => exact nomatch hm rfl
    exact asked_only (r := .endOfFile threshold) hparse _
  | setEvil allowed => exact asked_only (r := .setEvil allowed) trivial _
  | checksum32 a b =>
    obtain ⟨ha, hb⟩ := Bool.and_eq_true_iff.1 h
    exact only_bind (a.meaning_only env ha) fun x => only_bind (b.meaning_only env hb) fun y =>
      asked_only (r := .checksum32 x y) trivial _
  | checksum16 a b =>
    obtain ⟨ha, hb⟩ := Bool.and_eq_true_iff.1 h
    exact only_bind (a.meaning_only env ha) fun x => only_bind (b.meaning_only env hb) fun y =>
      asked_only (r := .checksum16 x y) trivial _
  | setEndian order => exact only_bind (only_request trivial) fun _ => only_pure _
  | seek _ | skip _ | reserve _ | patch _ _ | lookUInt _ _ _ | lookBytes _ _ _ | emit _ => cases h

theorem repeated_only {body : Env → Grammar String (Env × Flow)} (hbody : ∀ env, (body env).Only q)
    (n : Nat) (env : Env) : (repeated body n env).Only q := by
  induction n generalizing env with
  | zero => exact only_pure _
  | succ n ih =>
    apply only_bind (hbody env)
    rintro ⟨env, flow⟩
    cases flow with
    | next => exact ih env
    | left => exact only_pure _

theorem rest_only {rest : Block} (hrest : ∀ env, (rest.meaning env).Only q) (p : Env × Flow) :
    (match p with
      | (env, .next) => rest.meaning env
      | (env, .left) => pure (env, .left) : Grammar String (Env × Flow)).Only q := by
  obtain ⟨env, flow⟩ := p
  cases flow with
  | next => exact hrest env
  | left => exact only_pure _

theorem Block.meaning_only {call : Call → Bool}
    (hcall : ∀ c env, call c = true → (c.meaning env).Only (Request.Serial m)) (b : Block)
    (h : b.all Expr.sequential call = true) (env : Env) :
    (b.meaning env).Only (Request.Serial m) := by
  induction b generalizing env with
  | done => exact only_pure _
  | leave => exact only_pure _
  | stop code reason => trivial
  | call label command store rest ih =>
    obtain ⟨hc, hr⟩ := Bool.and_eq_true_iff.1 h
    exact only_bind (hcall command env hc) fun value =>
      only_bind (only_request (r := .note label value) trivial) fun _ => ih hr _
  | scope name kind body rest ihb ihr =>
    obtain ⟨hb, hr⟩ := Bool.and_eq_true_iff.1 h
    exact ⟨ihb hb env, rest_only (ihr hr)⟩
  | withEvil allowed body rest ihb ihr =>
    obtain ⟨hb, hr⟩ := Bool.and_eq_true_iff.1 h
    exact ⟨ihb hb env, rest_only (ihr hr)⟩
  | loop body rest ihb ihr =>
    obtain ⟨hb, hr⟩ := Bool.and_eq_true_iff.1 h
    refine ⟨fun env => only_bind (ihb hb env) ?_, ihr hr⟩
    rintro ⟨env, flow⟩
    cases flow <;> exact only_pure _
  | times count body rest ihb ihr =>
    obtain ⟨hc, h⟩ := Bool.and_eq_true_iff.1 h
    obtain ⟨hb, hr⟩ := Bool.and_eq_true_iff.1 h
    exact only_bind (count.meaning_only env hc) fun n =>
      only_bind (repeated_only (ihb hb) n env) fun env => ihr hr env
  | branch subject constant yes no rest ihy ihn ihr =>
    obtain ⟨hy, h⟩ := Bool.and_eq_true_iff.1 h
    obtain ⟨hn, hr⟩ := Bool.and_eq_true_iff.1 h
    refine only_bind ?_ (rest_only (ihr hr))
    split
    · exact ihy hy env
    · exact ihn hn env

theorem Block.grammar_only {call : Call → Bool}
    (hcall : ∀ c env, call c = true → (c.meaning env).Only (Request.Serial m)) {b : Block}
    (h : b.all Expr.sequential call = true) : b.grammar.Only (Request.Serial m) :=
  only_bind (b.meaning_only hcall h []) fun _ => only_pure _

/-- Decode, then encode: what a parse of a sequential script records generates the very input, with
the same chunks, insertion points and observations. Checksums are only taken of what was read, and
offsets in a file are words of 64 bits. -/
theorem Block.sequential_regenerates {b : Block} {limits : Limits} {input : Bytes}
    {w : Walk String} (hb : b.sequential = true)
    (hranged : b.grammar.Always (fun r s => r.Ranged s) (State.parsing limits input))
    (hfile : input.length ≤ limits.fileCapacity) (hword : input.length ≤ 2 ^ 64)
    (h : b.grammar.parse limits input = .ok w) :
    b.grammar.generate limits w.decisions =
        .ok ⟨.generate, input, w.decisions, w.chunks, w.points⟩ ∧
      b.grammar.trace limits (.decisions w.decisions) = b.grammar.trace limits (.input input) := by
  have honly : b.grammar.Only (Request.Serial .parse) :=
    grammar_only (m := .parse) (fun c env hc => c.meaning_only env hc fun hm => nomatch hm) hb
  exact parse_regenerates (honly.always (fun x t hx hp => ⟨hx, hp, fun hm => nomatch hm⟩) hranged)
    hfile hword h

def checkedRecords : Block :=
  .loop (.call "eof" (.endOfFile 128) (some "end")
    (.branch "end" ⟨none, none, some true⟩ .leave .done
      (.scope "record" "record"
        (.call "cstring" (.cstring (.literal 3)) (some "text")
          (.call "count" (.count (.literal 9) (.computed (.named "text"))) none
            (.call "crc16" (.checksum16 (.literal 0) .tell) (some "sum")
              (.call "uint_var" (.uintComputed (.literal 2) (.named "sum")) none .done)))) .done)))
    .done

theorem checkedRecords_ranged (s : State String) :
    checkedRecords.grammar.Always (fun r s => r.Ranged s) s := by
  refine ⟨fun env t _ => ⟨trivial, fun ends t _ => ⟨trivial, fun _ t _ => ?_⟩⟩,
    fun _ _ _ => trivial⟩
  cases ends with
  | true => trivial
  | false =>
    intro depth t _
    refine ⟨⟨trivial, fun bs t _ => ⟨trivial, fun _ t _ => ⟨trivial, fun n t _ => ⟨trivial,
      fun _ t _ => ⟨trivial, ?_⟩⟩⟩⟩⟩, ?_⟩
    · intro p u hp
      cases hp
      exact ⟨⟨Nat.zero_le _, Nat.le_refl _⟩, fun sum t _ => ⟨trivial, fun _ t _ => ⟨trivial,
        fun v t _ => ⟨trivial, fun _ t _ => trivial⟩⟩⟩⟩
    · rintro ⟨env, flow⟩ u v _ _
      cases flow <;> trivial

theorem sequential_regenerates_records :
    ∃ w, checkedRecords.grammar.parse {} [97, 0, 20, 37, 0, 1, 2] = .ok w ∧ w.chunks.length = 2 ∧
      checkedRecords.grammar.generate {} w.decisions =
        .ok ⟨.generate, [97, 0, 20, 37, 0, 1, 2], w.decisions, w.chunks, w.points⟩ ∧
      checkedRecords.grammar.trace {} (.decisions w.decisions) =
        checkedRecords.grammar.trace {} (.input [97, 0, 20, 37, 0, 1, 2]) := by
  have hrun : (checkedRecords.grammar.parse {} [97, 0, 20, 37, 0, 1, 2]).toOption.any
      (·.chunks.length == 2) = true := by decide +kernel
  obtain ⟨w, h, hw⟩ := ok_of_any hrun
  exact ⟨w, h, eq_of_beq hw, Block.sequential_regenerates (by decide) (checkedRecords_ranged _)
    (by decide) (by decide) h⟩

/-- Encode, then decode: a file that a sequential script generated is parsed as it was made, as soon
as the stream holds what the parse records, and this generates the file again. The stream that it
was generated from need not be the recorded one. -/
theorem Block.sequential_reparses {b : Block} {limits : Limits} {stream : Bytes} {w : Walk String}
    (hb : b.shown = true)
    (hfitting : b.grammar.Always (fun r s => r.Ranged s ∧ r.Fitting)
      (State.generating limits stream))
    (h : b.grammar.generate limits stream = .ok w) :
    ∃ decisions : Bytes, ∀ capacity, decisions.length ≤ capacity →
      ∃ p q, b.grammar.parse { limits with streamCapacity := capacity } w.file = .ok p ∧
        p.decisions = decisions ∧
        b.grammar.trace { limits with streamCapacity := capacity } (.input w.file) =
          b.grammar.trace limits (.decisions stream) ∧
        p.chunks.map Chunk.shape = w.chunks.map Chunk.shape ∧
        b.grammar.generate { limits with streamCapacity := capacity } decisions = .ok q ∧
        q.file = w.file := by
  have honly : b.grammar.Only (Request.Serial .generate) := by
    refine grammar_only (fun c env hc => ?_) hb
    obtain ⟨hc, hs⟩ := Bool.and_eq_true_iff.1 hc
    exact c.meaning_only env hc fun _ => hs
  exact generate_reparses (honly.always (fun x t hx hp => ⟨hx, hp.1, fun _ => hp.2⟩) hfitting) h

def taggedItems : Block :=
  .loop (.scope "item" "item"
      (.call "uint_known" (.uintKnown (.literal 1) [7, 9]) (some "tag")
        (.call "string" (.string (.literal 2)) none .done))
      (.branch "tag" ⟨some 7, none, none⟩ .leave .done .done))
    (.call "crc32" (.checksum32 (.literal 0) .tell) (some "sum")
      (.call "uint_var" (.uintComputed (.literal 4) (.named "sum")) none .done))

theorem taggedItems_fitting (s : State String) :
    taggedItems.grammar.Always (fun r s => r.Ranged s ∧ r.Fitting) s := by
  have hknown : (Request.uintKnown 1 [7, 9]).Fitting := by
    show ∀ v ∈ [7, 9], v < 256 ^ 1
    decide
  refine ⟨fun env t _ => ?_, fun env t _ => ⟨⟨trivial, trivial⟩, fun p u hp => ?_⟩⟩
  · intro depth t _
    refine ⟨⟨⟨trivial, hknown⟩, fun tag t _ => ⟨⟨trivial, trivial⟩, fun _ t _ =>
      ⟨⟨trivial, trivial⟩, fun bs t _ => ⟨⟨trivial, trivial⟩, fun _ _ _ => trivial⟩⟩⟩⟩, ?_⟩
    rintro ⟨env, flow⟩ u v _ _
    cases flow with
    | left => trivial
    | next =>
      dsimp only [Block.meaning]
      split <;> trivial
  · cases hp
    refine ⟨⟨⟨Nat.zero_le _, Nat.le_refl _⟩, trivial⟩, fun sum t hsum => ⟨⟨trivial, trivial⟩,
      fun _ t _ => ⟨⟨trivial, ?_⟩, fun v t _ => ⟨⟨trivial, trivial⟩, fun _ _ _ => trivial⟩⟩⟩⟩
    obtain ⟨bs, u, -, hcrc⟩ := Walker.bind_ok.1 hsum
    cases hcrc
    have hnumber :
        (env.assign "sum" (.number (crc32 bs).toNat)).number "sum" = (crc32 bs).toNat := by
      simp [Env.number, Env.assign]
    show ∀ v ∈ [(env.assign "sum" (.number (crc32 bs).toNat)).number "sum"], v < 256 ^ 4
    rw [hnumber, List.forall_mem_singleton]
    exact (crc32 bs).toNat_lt

/-- The first tag is drawn as an evil value but is a known one, and so it is recorded. -/
theorem sequential_reparses_items :
    ∃ w, taggedItems.grammar.generate {} [0, 100, 8, 70, 1, 2, 255, 0, 64, 3, 4, 255, 9] = .ok w ∧
      w.file = [9, 66, 67, 7, 68, 69, 10, 37, 179, 170] ∧
      ∃ decisions : Bytes, ∀ capacity, decisions.length ≤ capacity →
        ∃ p q, taggedItems.grammar.parse { streamCapacity := capacity } w.file = .ok p ∧
          p.decisions = decisions ∧
          taggedItems.grammar.trace { streamCapacity := capacity } (.input w.file) =
            taggedItems.grammar.trace {}
              (.decisions [0, 100, 8, 70, 1, 2, 255, 0, 64, 3, 4, 255, 9]) ∧
          p.chunks.map Chunk.shape = w.chunks.map Chunk.shape ∧
          taggedItems.grammar.generate { streamCapacity := capacity } decisions = .ok q ∧
          q.file = w.file := by
  have hrun : (taggedItems.grammar.generate {}
      [0, 100, 8, 70, 1, 2, 255, 0, 64, 3, 4, 255, 9]).toOption.any
        (·.file == [9, 66, 67, 7, 68, 69, 10, 37, 179, 170]) = true := by decide +kernel
  obtain ⟨w, h, hw⟩ := ok_of_any hrun
  have hback := Block.sequential_reparses (b := taggedItems) (by decide) (taggedItems_fitting _) h
  exact ⟨w, h, eq_of_beq hw, hback⟩

end Script

end DecisionWalk
