import DecisionWalk.Proofs.Spelling
import DecisionWalk.Proofs.Unwatched
import DecisionWalk.Proofs.Visiting

/-!
# Rules without productions

A rule that opens no production is not seen by any watch, and unless it asks for
it neither the evil bit nor the order of bytes is another one behind it. So the
watches of a production with such a rule only change where it is opened and where
it is closed, and apart from that it goes on as if nobody watched.
-/

set_option autoImplicit false

namespace DecisionWalk

open Walker

variable {K α β : Type} {s t : State K} {n : Nat}

def Tame (x : Walker K α) : Prop :=
  ∀ s a t, x s = .ok a t → t.evil = s.evil ∧ t.endian = s.endian

namespace Tame

theorem looks {x : Walker K α} (h : ∀ s a t, x s = .ok a t → t = s) : Tame x := by
  intro s a t hx
  rw [h s a t hx]
  exact ⟨rfl, rfl⟩

theorem bind {x : Walker K α} {f : α → Walker K β} (hx : Tame x) (hf : ∀ a, Tame (f a)) :
    Tame (x >>= f) := by
  intro s b t h
  obtain ⟨a, u, h1, h2⟩ := bind_ok.1 h
  obtain ⟨hevil, hendian⟩ := hx s a u h1
  obtain ⟨hevil', hendian'⟩ := hf a u b t h2
  exact ⟨hevil'.trans hevil, hendian'.trans hendian⟩

theorem pure (a : α) : Tame (pure a : Walker K α) := looks fun _ _ _ h => by cases h; rfl

/-- The bit is set back when the action is done. -/
theorem withEvil {x : Walker K α} (hx : Tame x) (allowed : Bool) :
    Tame (Walker.withEvil allowed x) := by
  intro s a t h
  rw [Walker.withEvil] at h
  cases hr : x { s with evil := ⟨allowed⟩ } with
  | error e u =>
    rw [hr] at h
    cases h
  | ok b u =>
    rw [hr] at h
    cases h
    exact ⟨rfl, (hx _ _ _ hr).2⟩

theorem costs {x : Walker K α} (hx : Costs n x) : Tame x := by
  intro s a t h
  obtain ⟨e, -, rfl⟩ := hx s a t h
  exact ⟨rfl, rfl⟩

theorem spells {x : Walker K α} (hx : ∀ s a t, x s = .ok a t → ∃ m bs, Spells m bs s t) :
    Tame x := by
  intro s a t h
  obtain ⟨m, bs, e, -, hemit⟩ := hx s a t h
  rw [hemit.rest]
  exact ⟨rfl, rfl⟩

theorem fillGap (n : Nat) : Tame (fillGap n : Walker K Unit) := by
  induction n with
  | zero => exact pure ()
  | succ n ih =>
    exact (spells fun _ _ _ h => ⟨0, readUIntFull_spells h |>.imp fun _ => And.right⟩).bind
      fun _ => ih

theorem seek (p : Nat) : Tame (seek p : Walker K Unit) := by
  intro s a t h
  rcases seek_cases h with ⟨-, rfl⟩ | ⟨-, u, hfill, rfl⟩
  · exact ⟨rfl, rfl⟩
  · obtain ⟨hevil, hendian⟩ := fillGap _ _ _ _ hfill
    exact ⟨hevil, hendian⟩

theorem patch (field : Reserved) (v : Nat) : Tame (patch field v : Walker K Unit) := by
  intro s a t h
  obtain ⟨bs, there, u, -, hthere, hemit, hback⟩ := patch_steps h
  obtain ⟨hevil, hendian⟩ := seek _ _ _ _ hthere
  obtain ⟨hevil', hendian'⟩ := seek _ _ _ _ hback
  rw [hemit.rest] at hevil' hendian'
  exact ⟨hevil'.trans hevil, hendian'.trans hendian⟩

theorem ahead (offset : Nat) {read : Walker K α} (hr : Tame read) :
    Tame (ahead offset read) := by
  intro s a t h
  obtain ⟨u, hu, rfl⟩ := ahead_ok h
  obtain ⟨hevil, hendian⟩ := hr _ _ _ hu
  exact ⟨hevil, hendian⟩

theorem endOfFile (threshold : Nat) : Tame (endOfFile threshold : Walker K Bool) := by
  have hposition : Tame (Walker.position : Walker K Nat) := looks fun _ _ _ h => by cases h; rfl
  have hknown : Tame (Walker.knownEnd : Walker K (Option Bool)) := by
    apply looks
    intro s a t h
    rw [Walker.knownEnd] at h
    split at h <;> cases h <;> rfl
  have hmark : ∀ start, Tame (Walker.markLookahead start : Walker K Unit) := by
    intro start s a t h
    cases h
    exact ⟨rfl, rfl⟩
  exact hposition.bind fun _ => hknown.bind fun _ => (costs (.coin _)).bind fun _ =>
    (hmark _).bind fun _ => pure _

end Tame

def Request.tame : {α : Type} → Request α → Prop
  | _, .setEvil _ => False
  | _, .setEndian _ => False
  | _, _ => True

theorem Request.answer_tame {r : Request α} (hr : r.tame) :
    Tame (r.answer : Walker K α) := by
  cases r with
  | setEvil | setEndian => exact hr.elim
  | uint => exact .spells fun _ _ _ h => ⟨0, readUInt_spells h |>.imp fun _ => And.right⟩
  | uintFull => exact .spells fun _ _ _ h => ⟨0, readUIntFull_spells h |>.imp fun _ => And.right⟩
  | uintKnown => exact .spells fun _ _ _ h => ⟨1, readUIntKnown_spells h |>.imp fun _ => And.right⟩
  | bytes => exact .spells fun _ _ _ h => ⟨0, _, readBytes_spells h⟩
  | bytesKnown => exact .spells fun _ _ _ h => ⟨1, _, (readBytesKnown_spells h).2⟩
  | string => exact .spells fun _ _ _ h => ⟨0, _, readString_spells h⟩
  | cstring => exact .spells fun _ _ _ h => ⟨0, _, readCString_spells h⟩
  | count => exact .costs (.decideCount _ _)
  | seek p => exact .seek p
  | skip n => exact (Tame.looks fun _ _ _ h => by cases h; rfl).bind fun _ => .seek _
  | reserve =>
    exact .spells fun _ _ _ h => ⟨0, (reserve_spells h).2.2.imp fun _ => And.right⟩
  | patch field v => exact .patch field v
  | endOfFile threshold => exact .endOfFile threshold
  | lookUInt =>
    exact .ahead _ (.spells fun _ _ _ h => ⟨1, readUIntKnown_spells h |>.imp fun _ => And.right⟩)
  | lookBytes => exact .ahead _ (.spells fun _ _ _ h => ⟨1, _, (readBytesKnown_spells h).2⟩)
  | checksum32 | checksum16 =>
    exact (Tame.looks fun _ _ _ h => (fixedSlice_ok h).2.2.2.1).bind fun _ => .pure _
  | emit => exact .spells fun _ _ _ h => ⟨0, _, .emits (emit_emits h)⟩
  | note | tell | fileSize | remaining =>
    intro s a t h
    cases h
    exact ⟨rfl, rfl⟩

namespace Grammar

def Plain : {α : Type} → Grammar K α → Prop
  | _, .done _ => True
  | _, .ask r next => r.tame ∧ ∀ a, (next a).Plain
  | _, .scope _ _ _ _ => False
  | _, .withEvil _ body next => body.Plain ∧ ∀ a, (next a).Plain
  | _, .loop _ _ _ => False
  | _, .stop _ _ => True

namespace Plain

theorem request {r : Request α} (hr : r.tame) : (Grammar.request r : Grammar K α).Plain :=
  ⟨hr, fun _ => trivial⟩

theorem bind {g : Grammar K α} {f : α → Grammar K β} (hg : g.Plain) (hf : ∀ a, (f a).Plain) :
    (g >>= f).Plain := by
  induction g with
  | done a => exact hf a
  | ask r next ih => exact ⟨hg.1, fun a => ih a (hg.2 a) hf⟩
  | scope => exact hg.elim
  | withEvil allowed body next _ ih => exact ⟨hg.1, fun a => ih a (hg.2 a) hf⟩
  | loop => exact hg.elim
  | stop => exact trivial

theorem discard {g : Grammar K α} (hg : g.Plain) : (discard g : Grammar K Unit).Plain :=
  hg.bind fun _ => trivial

theorem underEvil {g : Grammar K α} {allowed : Bool} (hg : g.Plain) :
    (Grammar.underEvil allowed g).Plain :=
  ⟨hg, fun _ => trivial⟩

variable [DecidableEq K] {g : Grammar K α}

theorem tame (hg : g.Plain) : Tame g.run := by
  induction g with
  | done a => exact .pure a
  | ask r next ih => exact (Request.answer_tame hg.1).bind fun a => ih a (hg.2 a)
  | scope => exact hg.elim
  | withEvil allowed body next ihb ih =>
    exact ((ihb hg.1).withEvil allowed).bind fun a => ih a (hg.2 a)
  | loop => exact hg.elim
  | stop code reason => exact fun s a t h => absurd h (throw_not_ok _ _ _ _)

theorem blind (hg : g.Plain) : Blind g.run := by
  induction g with
  | done a => exact .pure a
  | ask r next ih => exact (Blind.answer r).bind fun a => ih a (hg.2 a)
  | scope => exact hg.elim
  | withEvil allowed body next ihb ih =>
    refine Blind.bind ?_ fun a => ih a (hg.2 a)
    intro s a t h ws
    rw [Walker.withEvil] at h ⊢
    cases hr : body.run { s with evil := ⟨allowed⟩ } with
    | error e u =>
      rw [hr] at h
      cases h
    | ok b u =>
      rw [hr] at h
      cases h
      have hrun : body.run { s.watching ws with evil := ⟨allowed⟩ } = .ok a (u.watching ws) :=
        ihb hg.1 _ _ _ hr ws
      rw [hrun]
      rfl
  | loop => exact hg.elim
  | stop code reason => exact .throw _

theorem watches (hg : g.Plain) {a : α} (h : g.run s = .ok a t) : t.watches = s.watches := by
  have hsame := hg.blind s a t h s.watches
  have hown : s.watching s.watches = s := rfl
  rw [hown, h] at hsame
  injection hsame with _ hstate
  exact congrArg (·.watches) hstate

end Plain

end Grammar

theorem Grammar.Plain.unseen [DecidableEq K] {g : Grammar K α} (hg : g.Plain)
    {ws : List (Watch K)} {a : α} (hs : s.watches = []) (h : g.run (s.watching ws) = .ok a t) :
    ∃ u, g.run s = .ok a u ∧ u.watches = [] ∧ t = u.watching ws := by
  have hbare : g.run s = .ok a (t.watching s.watches) := hg.blind _ _ _ h s.watches
  refine ⟨t.watching s.watches, hbare, hs, ?_⟩
  rw [show ws = t.watches from (hg.watches h).symm]
  rfl

/-- Opening and closing a production changes neither the evil bit nor the order of bytes. -/
theorem Grammar.Plain.scope_tame [DecidableEq K] {body : Grammar K α} (hbody : body.Plain)
    (name : String) (kind : K) : Tame (Grammar.inScope name kind body).run := by
  intro s a t h
  rw [run_inScope] at h
  obtain ⟨_, s1, hopen, h⟩ := bind_ok.1 h
  obtain ⟨b, s2, hrun, h⟩ := bind_ok.1 h
  obtain ⟨_, s3, hclose, h⟩ := bind_ok.1 h
  cases h
  obtain ⟨ws, rfl⟩ := openScope_opened hopen
  obtain ⟨ws', stream, -, rfl⟩ := closeScope_closed hclose
  obtain ⟨hevil, hendian⟩ := hbody.tame _ _ _ hrun
  exact ⟨hevil, hendian⟩

def State.closing (s : State K) (depth : Nat) (ws : List (Watch K)) : State K :=
  { s with
    watches := (closeWatches depth ws s.stream).1
    stream := (closeWatches depth ws s.stream).2 }

theorem State.closing_idle {w : Watch K} {depth : Nat} (h : w.armed ≠ some depth) (s : State K) :
    s.closing depth [w] = s.watching [w] := by
  rw [closing, closeWatches, if_neg h]
  rfl

/-- A watch that is armed exchanges what is ahead, and is done. -/
theorem State.closing_restores {w : Watch K} {depth : Nat} {tail : Bytes}
    (h : w.armed = some depth) (htail : w.restore = some tail) (s : State K) :
    s.closing depth [w] =
      { s with
        watches := [{ w with
          armed := none, observedStop := some s.stream.position, restore := none }]
        stream := { s.stream with
          ahead := tail.take (s.stream.capacity - s.stream.position) } } := by
  rw [closing, closeWatches, if_pos h, htail]
  dsimp only
  rw [Stream.replaceTail_position]
  rfl

/-- Where a production is opened, its watches are armed. -/
theorem Walker.openScope_armed [DecidableEq K] {name : String} {kind : K} {depth : Nat}
    (h : openScope name kind s = .ok depth t) :
    s.tracker.depth < s.tracker.maxDepth ∧ depth = s.tracker.depth + 1 ∧ t =
      (s.tracking (s.tracker.opened name kind s.stream.position s.image.cursor)).watching
        (s.watches.map (·.arm (s.tracker.entering s.stream.position).start kind
          (s.tracker.depth + 1))) := by
  by_cases hroom : s.tracker.depth < s.tracker.maxDepth
  · rw [openScope, if_pos hroom] at h
    cases h
    exact ⟨hroom, rfl, rfl⟩
  · rw [openScope, if_neg hroom] at h
    cases h

/-- A production without others in it goes the same way when it is watched. Its watches are armed
where it is opened and closed where it is closed. -/
theorem Grammar.Plain.unwatched [DecidableEq K] {body : Grammar K α} (hbody : body.Plain)
    {name : String} {kind : K} {ws : List (Watch K)} {a : α} (hs : s.watches = [])
    (h : (Grammar.inScope name kind body).run (s.watching ws) = .ok a t) :
    ∃ u, (Grammar.inScope name kind body).run s = .ok a u ∧ t = u.closing (s.tracker.depth + 1)
      (ws.map (·.arm (s.tracker.entering s.stream.position).start kind (s.tracker.depth + 1))) := by
  rw [run_inScope] at h ⊢
  obtain ⟨depth, s1, hopen, h⟩ := bind_ok.1 h
  obtain ⟨b, s2, hrun, h⟩ := bind_ok.1 h
  obtain ⟨_, s3, hclose, h⟩ := bind_ok.1 h
  cases h
  obtain ⟨hroom, rfl, rfl⟩ := openScope_armed hopen
  have hwatches := hbody.watches hrun
  have hbare : body.run (s.tracking (s.tracker.opened name kind s.stream.position s.image.cursor)) =
      .ok a (s2.watching s.watches) := hbody.blind _ _ _ hrun s.watches
  rw [hs] at hbare
  cases hclose
  refine ⟨(s2.watching []).tracking (s2.tracker.closed s2.stream.position s2.image.cursor), ?_, ?_⟩
  · rw [bind_run (openScope_run name kind hs hroom), bind_run hbare]
    exact bind_run (closeScope_run _ rfl)
  · rw [hwatches]
    rfl

end DecisionWalk
