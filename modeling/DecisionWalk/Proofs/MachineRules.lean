import DecisionWalk.Proofs.MachineScopes
import DecisionWalk.Proofs.Stops
import DecisionWalk.Proofs.Strides

/-!
# Walks on a machine, rule by rule

A program on a machine serves a walk if it does the same from every state that
fits and leaves a state that fits. Programs are put together as grammars are, and
there is one rule for each way to do so. A loop whose rounds all take a decision
ends, since the stream holds only so many.
-/

set_option autoImplicit false

namespace DecisionWalk

open Walker

variable {K α β σ : Type}

/-- From every state that fits, the machine does what the walker does and comes to a state that
fits, with a result as promised. -/
structure Serves (k j : Nat) (x : Machine K α) (y : Walker K α) (post : α → Prop) : Prop where
  runs : ∀ s, Fit k s → Matches x y s
  leads : ∀ s a t, Fit k s → y s = .ok a t → Fit j t ∧ Extends s t ∧ post a

def anyResult (_ : α) : Prop := True

namespace Serves

open Machine

variable {k j i : Nat} {x : Machine K α} {y : Walker K α} {post : α → Prop}
  {f : α → Machine K β} {g : α → Walker K β} {postb : β → Prop}

theorem pure {a : α} (h : post a) : Serves k k (pure a : Machine K α) (pure a) post where
  runs s _ := .pure a s
  leads s b t hs hend := by
    cases hend
    exact ⟨hs, .refl s, h⟩

theorem weaken (h : Serves k j x y post) {post' : α → Prop} (hpost : ∀ a, post a → post' a) :
    Serves k j x y post' where
  runs := h.runs
  leads s a t hs hend := by
    obtain ⟨hfit, hext, ha⟩ := h.leads s a t hs hend
    exact ⟨hfit, hext, hpost a ha⟩

theorem bind (hx : Serves k j x y post) (hf : ∀ a, post a → Serves j i (f a) (g a) postb) :
    Serves k i (x >>= f) (y >>= g) postb where
  runs s hs := by
    refine (hx.runs s hs).bind fun a t hend => ?_
    obtain ⟨ht, -, ha⟩ := hx.leads s a t hs hend
    exact (hf a ha).runs t ht
  leads s b u hs hend := by
    obtain ⟨a, t, hfirst, hsecond⟩ := bind_ok.1 hend
    obtain ⟨ht, hext, ha⟩ := hx.leads s a t hs hfirst
    obtain ⟨hu, hext', hb⟩ := (hf a ha).leads t b u ht hsecond
    exact ⟨hu, hext.trans hext', hb⟩

theorem tighten (h : Serves k j x y post) (hi : i ≤ k) : Serves i j x y post where
  runs s hs := h.runs s (hs.weaken hi)
  leads s a t hs hend := h.leads s a t (hs.weaken hi) hend

theorem slacken (h : Serves k j x y post) (hj : j ≤ i) : Serves k i x y post where
  runs := h.runs
  leads s a t hs hend := by
    obtain ⟨hfit, hext, ha⟩ := h.leads s a t hs hend
    exact ⟨hfit.weaken hj, hext, ha⟩

/-- A request that takes `j` decisions at least makes up for as many chunks. -/
theorem spends {r : Request α} (hx : ∀ s, Fit (k + j) s → Matches x r.answer s)
    (hcost : ∀ (s : State K) a t, r.answer s = .ok a t → s.stream.position + j ≤ t.stream.position)
    (hpost : ∀ (s : State K) a t, Fit k t → r.answer s = .ok a t → post a) :
    Serves (k + j) k x r.answer post where
  runs := hx
  leads s a t hs hend := by
    have hpass := (Orderly.answer r).ok hend
    have ht := hs.passes hpass (hcost s a t hend)
    exact ⟨ht, hpass.extends, hpost s a t ht hend⟩

theorem promises {r : Request α} (hx : ∀ s, Fit k s → Matches x r.answer s)
    (hpost : ∀ (s : State K) a t, Fit k t → r.answer s = .ok a t → post a) :
    Serves k k x r.answer post :=
  spends (j := 0) hx (fun _ _ _ hend => ((Orderly.answer r).ok hend).position_le) hpost

theorem request {r : Request α} (hx : ∀ s, Fit k s → Matches x r.answer s) :
    Serves k k x r.answer anyResult :=
  promises hx fun _ _ _ _ _ => trivial

theorem stop (code : Int) (reason : String) :
    Serves k j (stop code reason) (throw (.grammarStop code reason) : Walker K α) post where
  runs _ _ := ⟨rfl, fun _ _ h => (nomatch h)⟩
  leads _ _ _ _ h := absurd h (throw_not_ok _ _ _ _)

theorem sum {a b : Nat} {f : Nat → Machine K α} (hab : a + b < wordValues)
    (h : Serves k j (f (a + b)) y post) : Serves k j (sum a b >>= f) y post where
  runs s hs := .sum hab (h.runs s hs)
  leads := h.leads

theorem difference {a b : Nat} {f : Nat → Machine K α} (hab : b ≤ a)
    (h : Serves k j (f (a - b)) y post) : Serves k j (difference a b >>= f) y post where
  runs s hs := by
    rw [Machine.difference, bind_assoc]
    exact .demand hab (h.runs s hs)
  leads := h.leads

theorem underEvil (h : Serves k j x y post) (allowed : Bool) :
    Serves k j (underEvil allowed x) (Walker.withEvil allowed y) post where
  runs s hs := by
    have hbody := h.runs _ (hs.tempted ⟨allowed⟩)
    constructor
    · rw [Machine.underEvil, hbody.runs, Walker.withEvil]
      cases y { s with evil := ⟨allowed⟩ } <;> rfl
    · intro d t hend
      rw [Walker.withEvil] at hend
      cases hy : y { s with evil := ⟨allowed⟩ } with
      | ok a u =>
        rw [hy] at hend
        cases hend
      | error e u =>
        rw [hy] at hend
        cases hend
        exact hbody.sane d u hy
  leads s a t hs hend := by
    rw [Walker.withEvil] at hend
    cases hy : y { s with evil := ⟨allowed⟩ } with
    | error e u =>
      rw [hy] at hend
      cases hend
    | ok b u =>
      rw [hy] at hend
      cases hend
      obtain ⟨hu, hext, ha⟩ := h.leads _ _ _ (hs.tempted ⟨allowed⟩) hy
      exact ⟨hu.tempted s.evil, ⟨hext.position, hext.capacity, hext.slots, hext.chunks⟩, ha⟩

/-- The body of a production finds one chunk more, and the production ends with that chunk. -/
theorem inScope [DecidableEq K] {name : String} {kind : K} (h : Serves (k + 1) j x y post)
    (hk : k < smallValues) :
    Serves k j (inScope name kind x)
      (do
        let depth ← Walker.openScope name kind
        let a ← y
        Walker.closeScope depth
        Pure.pure a) post where
  runs s hs := by
    refine .get ((openScope_matches hs hk).bind fun depth t hopen => ?_)
    refine (h.runs t (hs.opened hopen)).bind fun a u hbody => ?_
    obtain ⟨-, hext, -⟩ := h.leads t a u (hs.opened hopen) hbody
    obtain ⟨top, rest, c, hstack, -, hc, rfl, hoptional⟩ := hext.innermost hopen
    rw [← hoptional]
    exact (closeScope_matches depth hstack hc).bind fun _ _ _ => .pure _ _
  leads s a v hs hend := by
    obtain ⟨depth, t, hopen, hrest⟩ := bind_ok.1 hend
    obtain ⟨b, u, hbody, hrest⟩ := bind_ok.1 hrest
    obtain ⟨_, w, hclose, hrest⟩ := bind_ok.1 hrest
    cases hrest
    obtain ⟨hu, hext, ha⟩ := h.leads t a u (hs.opened hopen) hbody
    exact ⟨hu.closed hclose, hext.around hopen hclose, ha⟩

end Serves

section Loops

variable {step' : σ → Machine K (σ ⊕ β)} {step : σ → Walker K (σ ⊕ β)} {k : Nat}
  {post : β → Prop}

/-- A round that takes a decision is a round of its own. -/
theorem Grammar.iterate_succ {s : State K} {a : σ} (n : Nat)
    (h : ∀ b t, step a s = .ok (.inl b) t → s.stream.position < t.stream.position) :
    iterate step (n + 1) a s = (step a >>= Sum.elim (iterate step n) pure) s := by
  obtain ⟨idle, hidle⟩ : ∃ idle, idleRounds = idle + 1 := ⟨idleRounds - 1, rfl⟩
  cases hx : step a s with
  | error e t =>
    rw [bind_error hx]
    exact iterate_error (hidle ▸ settle_error hx)
  | ok r t =>
    rw [bind_run hx]
    cases r with
    | inr b => exact iterate_inr (hidle ▸ settle_inr hx)
    | inl b =>
      have hsettle : settle step s.stream.position (idle + 1) a s = _ := settle_inl hx
      rw [if_pos (h b t hx)] at hsettle
      exact iterate_inl (hidle ▸ hsettle)

/-- The rounds that are left suffice for the decisions that are. -/
theorem Serves.iterate {s : State K}
    (h : ∀ a, Serves k k (step' a) (step a) (Sum.elim anyResult post))
    (hmoves : ∀ a s b t, step a s = .ok b t → s.stream.position < t.stream.position)
    (n : Nat) (a : σ) (hs : Fit k s) (hroom : s.stream.capacity < s.stream.position + n) :
    Matches (Machine.iterate step' n a) (Grammar.iterate step n a) s ∧
      ∀ b t, Grammar.iterate step n a s = .ok b t → Fit k t ∧ Extends s t ∧ post b := by
  induction n generalizing a s with
  | zero =>
    have hposition := hs.position_le
    omega
  | succ n ih =>
    have hround : Grammar.iterate step (n + 1) a s = _ :=
      Grammar.iterate_succ n fun b t hend => hmoves a s _ t hend
    have hnext : ∀ b t, step a s = .ok (.inl b) t → Fit k t ∧ Extends s t ∧
        t.stream.capacity < t.stream.position + n := by
      intro b t hend
      obtain ⟨ht, hext, -⟩ := (h a).leads s _ t hs hend
      have hmoved := hmoves a s _ t hend
      have hcapacity := hext.capacity
      exact ⟨ht, hext, by omega⟩
    constructor
    · have hbind : Matches (Machine.iterate step' (n + 1) a)
          (step a >>= Sum.elim (Grammar.iterate step n) Pure.pure) s := by
        refine ((h a).runs s hs).bind fun r t hend => ?_
        cases r with
        | inr b => exact .pure b t
        | inl b =>
          obtain ⟨ht, -, hroom'⟩ := hnext b t hend
          exact (ih b ht hroom').1
      exact ⟨hbind.runs.trans (congrArg Machine.lifted hround.symm),
        fun d t hend => hbind.sane d t (hround.symm.trans hend)⟩
    · intro c u hend
      obtain ⟨r, t, hfirst, hrest⟩ := bind_ok.1 (hround.symm.trans hend)
      cases r with
      | inr b =>
        cases hrest
        exact (h a).leads s _ _ hs hfirst
      | inl b =>
        obtain ⟨ht, hext, hroom'⟩ := hnext b t hfirst
        obtain ⟨hu, hext', hc⟩ := (ih b ht hroom').2 c u hrest
        exact ⟨hu, hext.trans hext', hc⟩

/-- A loop whose rounds all take a decision ends before it runs out of rounds. -/
theorem Serves.repeatFrom (h : ∀ a, Serves k k (step' a) (step a) (Sum.elim anyResult post))
    (hmoves : ∀ a s b t, step a s = .ok b t → s.stream.position < t.stream.position) (init : σ) :
    Serves k k (Machine.repeatFrom init step')
      (do
        let s ← get
        Grammar.iterate step (s.stream.capacity + 1) init) post where
  runs s hs := .gets (iterate h hmoves _ init hs (by omega)).1
  leads s b t hs hend := (iterate h hmoves _ init hs (by omega)).2 b t hend

end Loops

section Grammars

variable [DecidableEq K] {k j i : Nat} {x : Machine K α} {post : α → Prop}

namespace Serves

theorem ask {r : Request α} (h : Serves k j x r.answer post) :
    Serves k j x (Grammar.request r : Grammar K α).run post := by
  rw [Grammar.run_request]
  exact h

theorem seq {g : Grammar K α} {f : α → Machine K β} {rest : α → Grammar K β} {postb : β → Prop}
    (hg : Serves k j x g.run post) (hf : ∀ a, post a → Serves j i (f a) (rest a).run postb) :
    Serves k i (x >>= f) (g >>= rest).run postb := by
  rw [Grammar.run_bind]
  exact hg.bind hf

theorem discard {g : Grammar K α} (hg : Serves k j x g.run post) :
    Serves k j (x >>= fun _ => Pure.pure ()) (discard g : Grammar K Unit).run anyResult := by
  rw [Grammar.run_discard]
  exact hg.bind fun _ _ => .pure trivial

theorem past {g : Grammar K α} {z : Machine K β} {rest : Grammar K β} {postb : β → Prop}
    (hg : Serves k j x g.run post) (hz : Serves j i z rest.run postb) :
    Serves k i (x >>= fun _ => z) (Functor.discard g >>= fun _ => rest).run postb := by
  rw [Grammar.run_bind, Grammar.run_discard, bind_assoc]
  exact hg.bind fun _ _ => hz

theorem evil {g : Grammar K α} (hg : Serves k j x g.run post) (allowed : Bool) :
    Serves k j (Machine.underEvil allowed x) (Grammar.underEvil allowed g).run post := by
  rw [Grammar.run_underEvil]
  exact hg.underEvil allowed

theorem scope {name : String} {kind : K} {g : Grammar K α} (hg : Serves (k + 1) j x g.run post)
    (hk : k < smallValues) :
    Serves k j (Machine.inScope name kind x) (Grammar.inScope name kind g).run post := by
  rw [Grammar.run_inScope]
  exact hg.inScope hk

theorem loop {init : σ} {step : σ → Machine K (σ ⊕ β)} {body : σ → Grammar K (σ ⊕ β)}
    {post : β → Prop} (h : ∀ a, Serves k k (step a) (body a).run (Sum.elim anyResult post))
    (hmoves : ∀ a s b t, (body a).run s = .ok b t → s.stream.position < t.stream.position) :
    Serves k k (Machine.repeatFrom init step) (Grammar.repeatFrom init body).run post := by
  rw [Grammar.run_repeatFrom]
  exact repeatFrom h hmoves init

end Serves

end Grammars

section Requests

open Machine

variable {k : Nat}

theorem readUInt_lt {width v : Nat} {s t : State K} (h : Walker.readUInt width s = .ok v t) :
    v < Sampler.valuesOf width := by
  obtain ⟨_, s1, hwidth, h⟩ := bind_ok.1 h
  obtain ⟨there, s2, -, h⟩ := bind_ok.1 h
  obtain ⟨value, s3, hdraw, h⟩ := bind_ok.1 h
  obtain ⟨_, s4, -, h⟩ := bind_ok.1 h
  cases h
  obtain ⟨selector, s5, -, hraw⟩ := bind_ok.1 hdraw
  generalize Tier.ofSelector selector = tier at hraw
  have hdecoded : ∃ raw, v = tier.decode width raw := by
    cases tier <;>
      (obtain ⟨raw, _, -, hend⟩ := bind_ok.1 hraw
       cases hend
       exact ⟨raw, rfl⟩)
  obtain ⟨raw, rfl⟩ := hdecoded
  exact Sampler.decode_lt width raw _ (checkWidth_ok hwidth).1

theorem decideCount_le {most v : Nat} {derived : Option Nat} {s t : State K}
    (h : Walker.decideCount most derived s = .ok v t) : v ≤ most := by
  have hrest : ∀ s, (Walker.sampleSmall 8 derived >>= fun value =>
      pure (value % (most + 1)) : Walker K Nat) s = .ok v t → v ≤ most := by
    intro s h
    obtain ⟨value, u, -, h⟩ := bind_ok.1 h
    cases h
    exact Nat.le_of_lt_succ (Nat.mod_lt _ (Nat.succ_pos most))
  cases derived with
  | none =>
    rw [Walker.decideCount] at h
    replace h := (get_bind _ s).symm.trans h
    split at h
    · obtain ⟨_, _, h, -⟩ := bind_ok.1 h
      exact absurd h (violation_not_ok _ _ _ _)
    · exact hrest s h
  | some derived =>
    rw [Walker.decideCount] at h
    dsimp only at h
    split at h
    · obtain ⟨_, _, h, -⟩ := bind_ok.1 h
      exact absurd h (violation_not_ok _ _ _ _)
    · exact hrest s h

theorem endOfFile_spends {threshold : Nat} {ends : Bool} {s t : State K}
    (h : Walker.endOfFile threshold s = .ok ends t) :
    s.stream.position + 1 ≤ t.stream.position := by
  obtain ⟨start, s1, h1, h⟩ := bind_ok.1 h
  obtain ⟨forced, s2, h2, h⟩ := bind_ok.1 h
  obtain ⟨coin, s3, h3, h⟩ := bind_ok.1 h
  obtain ⟨_, s4, h4, h⟩ := bind_ok.1 h
  cases h1
  cases h4
  cases h
  have hknown : s2 = s := by
    rw [knownEnd] at h2
    split at h2 <;> cases h2 <;> rfl
  obtain ⟨e, he, rfl⟩ := Costs.coin _ _ _ _ h3
  rw [hknown]
  show _ ≤ (s.stream.recorded e).position
  rw [Stream.recorded_position]
  exact Nat.add_le_add_left he _

namespace Serves

theorem uint (width : Nat) :
    Serves k k (readUInt width) ((Request.uint width).answer : Walker K Nat)
      (· < Sampler.valuesOf width) :=
  promises (fun _ hs => readUInt_matches width hs.placed) fun _ _ _ _ => readUInt_lt

theorem uintKnown (width : Nat) {known : List Nat} (hk : known.length ≤ wordValues) :
    Serves k k (readUIntKnown width known)
      ((Request.uintKnown width known).answer : Walker K Nat) anyResult :=
  request fun _ hs => readUIntKnown_matches width hk hs.placed

theorem bytes {length : Nat} (hlength : length < smallValues) :
    Serves k k (readBytes length) ((Request.bytes length).answer : Walker K Bytes) anyResult :=
  request fun _ hs => readBytes_matches hs.placed hlength

theorem bytesKnown {length : Nat} {known : List Bytes} (hlength : length < smallValues)
    (hk : known.length ≤ wordValues) (hknown : ∀ bs ∈ known, bs.length = length) :
    Serves k k (readBytesKnown length known)
      ((Request.bytesKnown length known).answer : Walker K Bytes) anyResult :=
  request fun _ hs => readBytesKnown_matches hs.placed hlength hk hknown

theorem string {length : Nat} (hlength : length < smallValues) :
    Serves k k (readString length) ((Request.string length).answer : Walker K Bytes) anyResult :=
  request fun _ hs => readString_matches hs.placed hlength

theorem cstring {most : Nat} (hmost : most < smallValues) :
    Serves k k (readCString most) ((Request.cstring most).answer : Walker K Bytes)
      (·.length < smallValues) := by
  refine promises (fun _ hs => readCString_matches hs.placed hmost) ?_
  intro s bs t ht hend
  have hcursor := (readCString_spells hend).cursor
  have hlt := ht.cursor_lt
  rw [List.length_append, List.length_singleton] at hcursor
  omega

theorem count (most : Nat) (derived : Option Nat) :
    Serves k k (decideCount most derived)
      ((Request.count most derived).answer : Walker K Nat) (· ≤ most) :=
  promises (fun _ hs => decideCount_matches most derived hs.toSteady) fun _ _ _ _ => decideCount_le

theorem skip {n : Nat} (hn : n < smallValues) :
    Serves k k (skip n) ((Request.skip n).answer : Walker K Unit) anyResult :=
  request fun _ hs => skip_matches hs.placed hn

theorem reserve (width : Nat) :
    Serves k k (reserve width) ((Request.reserve width).answer : Walker K Reserved)
      (·.width = width) :=
  promises (fun _ hs => reserve_matches width hs.placed)
    fun _ _ _ _ hend => (reserve_spells hend).2.1

theorem patch {field : Reserved} (value : Nat) (hw : field.width ≤ wordBytes) :
    Serves k k (patch field value) ((Request.patch field value).answer : Walker K Unit) anyResult :=
  request fun _ hs => patch_matches value hs.placed hw

theorem endOfFile (threshold : Nat) :
    Serves (k + 1) k (endOfFile threshold)
      ((Request.endOfFile threshold).answer : Walker K Bool) anyResult :=
  spends (fun _ hs => endOfFile_matches threshold hs.toSteady hs.tracks.exits)
    (fun _ _ _ => endOfFile_spends) fun _ _ _ _ _ => trivial

/-- A look ahead takes a decision. -/
theorem lookBytes {offset length : Nat} {known : List Bytes} (hoffset : offset < smallValues)
    (hlength : length < smallValues) (hk : known.length ≤ wordValues)
    (hknown : ∀ bs ∈ known, bs.length = length) :
    Serves (k + 1) k (lookBytesKnown offset length known)
      ((Request.lookBytes offset length known).answer : Walker K Bytes) anyResult := by
  refine spends ?_ (fun _ _ _ hend => (Looked.bytesKnown hend).position)
    fun _ _ _ _ _ => trivial
  intro s hs
  have hcursor := hs.cursor_lt
  refine lookBytesKnown_matches hs.placed ?_ hs.tracks.exits hlength hk hknown
  simp only [smallValues, allocationBound] at *
  omega

theorem checksum32 {start stop : Nat} (hstart : start < smallValues) (hstop : stop < smallValues) :
    Serves k k (checksum32 start stop)
      ((Request.checksum32 start stop).answer : Walker K Nat) anyResult := by
  refine request fun _ _ => checksum32_matches ?_
  simp only [smallValues, wordValues] at *
  omega

theorem checksum16 {start stop : Nat} (hstart : start < smallValues) (hstop : stop < smallValues) :
    Serves k k (checksum16 start stop)
      ((Request.checksum16 start stop).answer : Walker K Nat) anyResult := by
  refine request fun _ _ => checksum16_matches ?_
  simp only [smallValues, wordValues] at *
  omega

theorem tell : Serves k k tell ((Request.tell).answer : Walker K Nat) (· < smallValues) := by
  refine promises (fun _ _ => tell_matches) ?_
  intro s a t ht hend
  cases hend
  exact ht.cursor_lt

theorem remaining :
    Serves k k remaining ((Request.remaining).answer : Walker K Nat) (· < smallValues) := by
  refine promises (fun _ _ => remaining_matches) ?_
  intro s a t ht hend
  cases hend
  exact Nat.lt_of_le_of_lt (Nat.sub_le _ _) ht.limit

theorem fileSize : Serves k k fileSize ((Request.fileSize).answer : Walker K Nat) anyResult :=
  request fun _ _ => .looks (Or.inl ⟨_, rfl⟩)

theorem setEndian (order : Endian) :
    Serves k k (setEndian order) ((Request.setEndian order).answer : Walker K Unit) anyResult :=
  request fun _ _ => .plain fun _ _ h => (nomatch h)

end Serves

end Requests

/-- A chunk is no deeper than there are chunks before it. -/
theorem Tracked.depth_le {t : Tracker K} {p n : Nat} (h : Tracked t p n) (hs : t.stack = [])
    (i : Nat) : ∀ c, t.chunks[i]? = some c → c.depth ≤ i := by
  induction i using Nat.strongRecOn with
  | ind i ih =>
    intro c hc
    obtain ⟨-, -, hroot, hparent⟩ := h.nested i c hc (by rw [hs]; exact fun _ ho => (nomatch ho))
    cases hp : c.parent with
    | none => exact Nat.le_trans (Nat.le_of_eq (hroot.1 hp)) (Nat.zero_le i)
    | some j =>
      obtain ⟨hlt, ⟨outer, houter, hdepth⟩, -⟩ := hparent j hp
      have houter := ih j hlt outer houter
      omega

section Runs

variable {limits : Limits} {origin : Origin} {watches : List (Watch K)}

/-- What a machine needs to walk: no capacity and no input is too large, and no watch waits for a
depth whose successor leaves a word. -/
structure Manageable (limits : Limits) (origin : Origin) (watches : List (Watch K)) : Prop where
  streamCapacity : limits.streamCapacity < smallValues
  fileCapacity : limits.fileCapacity < smallValues
  input : ∀ bytes, origin = .input bytes → bytes.length < smallValues
  depths : ∀ w ∈ watches, ∀ d, w.depth = some d → d + 1 < wordValues

theorem Manageable.fits {seeded : State K} (hm : Manageable limits origin watches)
    (h : Grammar.seed origin (State.empty limits) = .ok () seeded) :
    Fit 0 { seeded with watches := watches } := by
  have hs := Grammar.seed_seeded h
  obtain ⟨htracker, hposition, hcursor, hsize⟩ := Grammar.seed_start h
  refine ⟨⟨hs.within, ?_⟩, hs.coherent, hs.cursor, ?_, ?_, ?_, ?_⟩
  · show seeded.stream.capacity < _
    rw [hs.streamCapacity]
    exact hm.streamCapacity
  · show seeded.image.limit < _
    rw [Image.limit, hs.coherent.input, hs.mode]
    cases origin with
    | decisions bytes =>
      rw [Origin.mode, if_neg (by decide), Option.getD_none, hs.fileCapacity]
      exact hm.fileCapacity
    | input bytes =>
      rw [Origin.mode, if_pos rfl, Option.getD_some, hs.input bytes rfl, List.size_toArray]
      exact hm.input bytes rfl
  · show Tracked seeded.tracker seeded.stream.position seeded.image.size
    rw [htracker, hposition, hsize]
    exact .empty _
  · intro d hd
    obtain ⟨w, hw, hdepth⟩ := List.mem_map.1 hd
    exact hm.depths w hw d hdepth
  · show seeded.tracker.chunks.size ≤ _
    rw [htracker]
    exact Nat.zero_le _

theorem Grammar.seed_sane {s t : State K} (d : Defect) : seed origin s ≠ .error (.defect d) t := by
  intro h
  cases origin with
  | input bytes => cases h
  | decisions bytes =>
    rw [seed, seedGenerate, Stream.seed] at h
    split at h
    · cases h
    · rename_i hseed
      split at hseed <;> cases hseed
      cases h

/-- A walk that has come to its end has closed all that it opened, and found only so many chunks. -/
theorem Fit.finish {k : Nat} {t : State K} (hs : Fit k t) (hk : k < smallValues)
    (hstack : t.tracker.stack = []) :
    Machine.finish t = t.finish.mapError .failed ∧ (∀ d, t.finish ≠ .error (.defect d)) ∧
      ∀ w ws, t.finish = .ok (w, ws) → ∀ c ∈ w.chunks, c.depth + 1 < wordValues := by
  refine ⟨if_pos ⟨hstack, Nat.le_add_right _ _⟩, ?_, ?_⟩
  · intro d hd
    rw [State.finish] at hd
    dsimp only at hd
    split at hd <;> cases hd
  · intro w ws hend c hc
    obtain ⟨-, hw⟩ := (State.finish_iff _ _).1 hend
    cases hw
    have hclosed : t.tracker.closeAll t.stream.position t.image.cursor = t.tracker := by
      rw [Tracker.closeAll, Tracker.depth, hstack]
      rfl
    have hmem : c ∈ (t.tracker.closeAll t.stream.position t.image.cursor).chunks.toList := hc
    rw [hclosed] at hmem
    obtain ⟨i, hi⟩ := List.mem_iff_getElem?.1 hmem
    rw [Array.getElem?_toList] at hi
    have hdepth := hs.tracks.depth_le hstack i c hi
    have hlt := (Array.getElem?_eq_some_iff.1 hi).1
    have hchunks := hs.chunks
    have hposition := hs.position_le
    have hcapacity := hs.capacity
    simp only [smallValues, wordValues] at *
    omega

variable [DecidableEq K]

/-- The machine ends the walk of a grammar as the walker does, with a result or with an error that
the walk may have, and never with a trap. Watches may wait for the depth of any chunk of the
result. -/
structure Executes (x : Machine K Unit) (g : Grammar K Unit) (limits : Limits) (origin : Origin)
    (watches : List (Watch K)) : Prop where
  runs : Machine.runFrom x limits origin watches =
    (g.runFrom limits origin watches).outcome.mapError .failed
  sane : ∀ d, (g.runFrom limits origin watches).outcome ≠ .error (.defect d)
  depths : ∀ w ws, (g.runFrom limits origin watches).outcome = .ok (w, ws) →
    ∀ c ∈ w.chunks, c.depth + 1 < wordValues

/-- A failure of the walk is one of the machine. -/
theorem Executes.failed {x : Machine K Unit} {g : Grammar K Unit} {e : WalkError}
    (hwalker : (g.runFrom limits origin watches).outcome = .error e)
    (hmachine : Machine.runFrom x limits origin watches = .error (.failed e))
    (he : ∀ d, e ≠ .defect d) : Executes x g limits origin watches := by
  refine ⟨by rw [hwalker, hmachine]; rfl, ?_, ?_⟩
  · intro d hd
    rw [hwalker] at hd
    cases hd
    exact he d rfl
  · intro w ws hend
    rw [hwalker] at hend
    cases hend

section Seeded

variable {x : Machine K Unit} {g : Grammar K Unit} {k : Nat} {a : Unit} {seeded t : State K}
  (h : Serves 0 k x g.run anyResult)
  (hseed : Grammar.seed origin (State.empty limits : State K) = .ok a seeded)
  (hm : Manageable limits origin watches)
include h hseed hm

/-- Where the walk comes to its end, the machine ends it. -/
theorem Serves.executes_end (hk : k < smallValues) {b : Unit}
    (hrun : g.run { seeded with watches := watches } = .ok b t) :
    Executes x g limits origin watches := by
  have hfit := hm.fits hseed
  obtain ⟨ht, hext, -⟩ := h.leads _ _ t hfit hrun
  have hslots := hext.slots
  have hstack : t.tracker.stack = [] := by
    rw [(Grammar.seed_start hseed).1] at hslots
    exact List.map_eq_nil_iff.1 hslots
  obtain ⟨hfinish, hsane, hdepths⟩ := ht.finish hk hstack
  have hmachine : Machine.runFrom x limits origin watches = Machine.finish t := by
    rw [Machine.runFrom, hseed]
    dsimp only
    rw [(h.runs _ hfit).runs, hrun]
    rfl
  have houtcome : (g.runFrom limits origin watches).outcome = t.finish := by
    rw [Grammar.runFrom, hseed]
    dsimp only
    rw [hrun]
    rfl
  exact ⟨by rw [hmachine, houtcome, hfinish], houtcome ▸ hsane, houtcome ▸ hdepths⟩

/-- Where the walk fails, the machine fails alike, and not by a rule of its own. -/
theorem Serves.executes_error {e : WalkError} (hstops : g.StopsIn (· ≠ 0))
    (hrun : g.run { seeded with watches := watches } = .error e t) :
    Executes x g limits origin watches := by
  have hmatch := h.runs _ (hm.fits hseed)
  have hstop : ∀ reason, e ≠ .grammarStop 0 reason := by
    rintro reason rfl
    exact Grammar.run_stopsIn hstops _ 0 reason t hrun rfl
  have hsane : ∀ d, e ≠ .defect d := by
    rintro d rfl
    exact hmatch.sane d t hrun
  refine .failed ?_ ?_ hsane
  · rw [Grammar.runFrom, hseed]
    dsimp only
    rw [hrun, Grammar.conclude]
    exact hstop
  · rw [Machine.runFrom, hseed]
    dsimp only
    rw [hmatch.runs, hrun, Machine.lifted]
    split
    · rename_i hend
      cases hend
    · rename_i hend
      cases hend
      exact absurd rfl (hstop _)
    · rename_i hend
      cases hend
      rfl

end Seeded

/-- A program that serves a grammar which only stops with a failure executes its walks. -/
theorem Serves.executes {x : Machine K Unit} {g : Grammar K Unit} {k : Nat}
    (h : Serves 0 k x g.run anyResult) (hk : k < smallValues) (hstops : g.StopsIn (· ≠ 0))
    (hm : Manageable limits origin watches) : Executes x g limits origin watches := by
  cases hseed : Grammar.seed origin (State.empty limits : State K) with
  | error e s =>
    have hmachine : Machine.runFrom x limits origin watches = .error (.failed e) := by
      rw [Machine.runFrom, hseed]
    refine .failed (by rw [Grammar.runFrom, hseed]) hmachine ?_
    rintro d rfl
    exact Grammar.seed_sane d hseed
  | ok _ seeded =>
    cases hrun : g.run { seeded with watches := watches } with
    | ok _ t => exact h.executes_end hseed hm hk hrun
    | error e t => exact h.executes_error hseed hm hstops hrun

end Runs

end DecisionWalk
