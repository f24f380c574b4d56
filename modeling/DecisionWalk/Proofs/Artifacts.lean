import DecisionWalk.Command.Fuzz
import DecisionWalk.Format.Png
import DecisionWalk.Format.Riff
import DecisionWalk.Proofs.Journals
import DecisionWalk.Proofs.Mutations

/-!
# What a fuzz loop leaves behind

The output directory of a fuzz loop holds one file and its decisions for each
digest that was seen, and the decisions generate the file. Nothing that was
written is written over. The digest may be any function of the file's bytes.
-/

set_option autoImplicit false

namespace DecisionWalk.Command

variable {K : Type} [DecidableEq K] [ProductionKind K]

def campaign {m : Type → Type} [Monad m] [Disk m] (digest : Bytes → String) (format : Format K)
    (limits : Limits) (plan : FuzzPlan) : Task m Campaign := do
  let store ← ArtifactStore.create plan.outDir format.extension
  let corpus ← loadPlanSeeds format limits plan.seedPaths
  fuzzRounds digest ⟨format.grammar, limits⟩ corpus plan.iterations plan.iterations
    { store := store, source := ChaCha.ofSeed plan.seed }

theorem fuzz_eq {σ : Type} [Disk (StateM σ)] (digest : Bytes → String) (format : Format K)
    (limits : Limits) (host : Host (StateM σ)) (plan : FuzzPlan) :
    fuzz digest format limits host plan = campaign digest format limits plan >>= fun c =>
      (host.elapsed : Task (StateM σ) String) >>= fun elapsed =>
        say (fuzzSummary plan elapsed c) := by
  rw [fuzz, campaign]
  simp only [bind_assoc]

section Echoing

theorem create_retells {γ : Type} {view : Journal → γ}
    (hview : ∀ (j : Journal) tree, view { j with tree := tree } = view j) (dir extension : String) :
    Retells view (ArtifactStore.create dir extension) (ArtifactStore.create dir extension) :=
  (Retells.orFail (createDirs_echoes hview dir) _).bind fun _ => .pure _

omit [ProductionKind K] in
theorem loadPlanSeeds_retells {γ : Type} (view : Journal → γ) (format : Format K) (limits : Limits)
    (paths : List String) :
    Retells view (loadPlanSeeds format limits paths) (loadPlanSeeds format limits paths) := by
  refine (Retells.lift (loadSeeds_echoes view format.grammar limits paths 0 _)).bind fun r => ?_
  split
  · exact .throw _
  · split
    · exact (Retells.throw _).bind fun _ => .pure _
    · exact .pure _

theorem save_retells (digest : Bytes → String) (s : ArtifactStore) (file decisions : Bytes) :
    Retells (fun _ => ()) (s.save digest file decisions) (s.save digest file decisions) := by
  rw [ArtifactStore.save, ArtifactStore.save]
  dsimp only
  split
  · exact .pure _
  · refine (Retells.lift (Echoes.holds _ _)).bind fun b => ?_
    split
    · exact .pure _
    · exact (Retells.orFail (Echoes.write _ _) _).bind fun _ =>
        (Retells.orFail (Echoes.write _ _) _).bind fun _ => .pure _

theorem fuzzRound_retells (digest : Bytes → String) (m : Mutator K) (corpus : Corpus K)
    (total i : Nat) (c : Campaign) :
    Retells (fun _ => ()) (fuzzRound digest m corpus total i c)
      (fuzzRound digest m corpus total i c) := by
  rw [fuzzRound, fuzzRound]
  rcases produce m corpus c.source with ⟨produced, source⟩
  cases produced with
  | none => exact (Retells.pure _).bind fun _ => (Retells.say _).bind fun _ => .pure _
  | some walk =>
    exact (save_retells _ _ _ _).bind fun _ => (Retells.pure _).bind fun _ =>
      (Retells.say _).bind fun _ => .pure _

theorem fuzzRounds_retells (digest : Bytes → String) (m : Mutator K) (corpus : Corpus K)
    (total left : Nat) (c : Campaign) :
    Retells (fun _ => ()) (fuzzRounds digest m corpus total left c)
      (fuzzRounds digest m corpus total left c) := by
  induction left generalizing c with
  | zero => exact .pure c
  | succ left ih => exact (fuzzRound_retells _ _ _ _ _ c).bind ih

theorem campaign_retells (digest : Bytes → String) (format : Format K) (limits : Limits)
    (plan : FuzzPlan) :
    Retells (fun _ => ()) (campaign digest format limits plan)
      (campaign digest format limits plan) :=
  (create_retells (fun _ _ => rfl) _ _).bind fun _ =>
    (loadPlanSeeds_retells _ _ _ _).bind fun _ => fuzzRounds_retells _ _ _ _ _ _

end Echoing

section Producing

/-- The recorded decisions of a file that a round produces generate it. -/
theorem produce_generates {m : Mutator K} {corpus : Corpus K} {r r' : ChaCha} {w : Walk K}
    (h : produce m corpus r = (some w, r')) :
    m.grammar.generate m.limits w.decisions = .ok w := by
  have hretold : ∀ decisions watches watches',
      m.grammar.replay m.limits decisions watches = .ok (w, watches') →
        m.grammar.generate m.limits w.decisions = .ok w := by
    intro decisions watches watches' hreplay
    obtain ⟨hlen, hgen⟩ := Grammar.replay_retold hreplay
    have hself := hgen [] hlen
    rwa [List.append_nil] at hself
  rw [produce] at h
  split at h
  · generalize r.fill m.limits.streamCapacity = filled at h
    obtain ⟨decisions, r₁⟩ := filled
    dsimp only at h
    cases hg : m.grammar.generate m.limits decisions with
    | error e =>
      rw [hg] at h
      cases h
    | ok w' =>
      rw [hg] at h
      cases h
      obtain ⟨ws, hrun⟩ := Grammar.outcome_ok hg
      exact hretold _ _ _ hrun
  · generalize corpus.randomFile? r = picked at h
    obtain ⟨target, r₁⟩ := picked
    cases target with
    | none => cases h
    | some target =>
      dsimp only at h
      cases hm : m.mutate corpus target r₁ with
      | error e r₂ =>
        rw [hm] at h
        cases h
      | ok mutation r₂ =>
        rw [hm] at h
        cases h
        obtain ⟨decisions, watches, watches', hreplay⟩ :=
          Mutator.Replays.mutate corpus target _ _ _ hm
        exact hretold _ _ _ hreplay

end Producing

section Naming

def artifact (stem extension : String) : String := stem ++ "." ++ extension

theorem artifact_dec (stem : String) : stem ++ ".dec" = artifact stem "dec" := by
  rw [artifact, String.append_assoc]
  rfl

theorem artifact_toList (stem extension : String) :
    (artifact stem extension).toList = stem.toList ++ '.' :: extension.toList := by
  simp [artifact, String.toList_append]

theorem artifact_inj {stem stem' extension extension' : String}
    (hlen : extension.length = extension'.length)
    (h : artifact stem extension = artifact stem' extension') :
    stem = stem' ∧ extension = extension' := by
  have hlist := congrArg String.toList h
  rw [artifact_toList, artifact_toList] at hlist
  have hlen' : ('.' :: extension.toList).length = ('.' :: extension'.toList).length := by
    rw [List.length_cons, List.length_cons, String.length_toList, String.length_toList, hlen]
  obtain ⟨hstem, hext⟩ := List.append_inj' hlist hlen'
  exact ⟨String.toList_inj.1 hstem, String.toList_inj.1 (List.cons.inj hext).2⟩

theorem hexDigit_ne_slash : ∀ n < 16, Text.hexDigit n ≠ '/' := by decide

theorem slash_not_mem_hex (bs : Bytes) : '/' ∉ (Text.hex bs).toList := by
  rw [Text.hex, String.toList_ofList, List.mem_flatMap]
  rintro ⟨b, -, hb⟩
  have hlt : b.toNat < 256 := b.toNat_lt
  rcases List.mem_cons.1 hb with h | hb
  · exact hexDigit_ne_slash _ (by omega) h.symm
  · exact hexDigit_ne_slash _ (by omega) (List.mem_singleton.1 hb).symm

theorem artifact_plain {stem extension : String} (hs : '/' ∉ stem.toList)
    (he : '/' ∉ extension.toList) (hlen : extension.length = 3) :
    Disk.Plain (artifact stem extension) := by
  have hlist := artifact_toList stem extension
  have hlong : ∀ name : String, name.toList.length ≤ 2 → artifact stem extension ≠ name := by
    rintro name hshort rfl
    rw [hlist] at hshort
    simp only [List.length_append, List.length_cons, String.length_toList, hlen] at hshort
    omega
  refine ⟨?_, hlong _ (by decide), hlong _ (by decide), hlong _ (by decide)⟩
  rw [hlist]
  simp [hs, he]

end Naming

structure Archived (format : Format K) (limits : Limits) (digest : Bytes → String) (dir : String)
    (stems : List String) (t : FileTree) : Prop where
  nodup : stems.Nodup
  names : ∀ p, t.dirAt dir = .ok p → (t.namesIn p).Perm
    (stems.flatMap fun stem => [artifact stem format.extension, artifact stem "dec"])
  replays : ∀ stem ∈ stems, ∃ file decisions w,
    t.read (Disk.join dir (artifact stem format.extension)) = .ok file ∧
    t.read (Disk.join dir (artifact stem "dec")) = .ok decisions ∧
    digest file = stem ∧ format.grammar.generate limits decisions = .ok w ∧ w.file = file

structure Untouched (j : Journal) : Prop where
  nodup : (j.writes.map Prod.fst).Nodup
  held : ∀ place bytes, (place, bytes) ∈ j.writes → j.tree.find? place = some (.file bytes)

theorem Untouched.wrote {j : Journal} (h : Untouched j) {p : Place} (hfree : j.tree.find? p = none)
    (bytes : Bytes) : Untouched ⟨j.tree.set p (.file bytes), (p, bytes) :: j.writes⟩ := by
  constructor
  · refine List.nodup_cons.2 ⟨?_, h.nodup⟩
    intro hmem
    obtain ⟨⟨place, old⟩, hold, rfl⟩ := List.mem_map.1 hmem
    have hheld := h.held place old hold
    rw [hfree] at hheld
    cases hheld
  · intro place old hold
    rcases List.mem_cons.1 hold with heq | hold
    · cases heq
      rw [FileTree.find?_set (FileTree.ne_nil_of_free hfree), if_pos rfl]
    · exact FileTree.find?_set_free hfree _ (h.held place old hold)

structure Gains (dir : String) (t : FileTree) (names : List String) (t' : FileTree) : Prop where
  names : ∀ p, t.dirAt dir = .ok p → t'.dirAt dir = .ok p ∧ t'.namesIn p = t.namesIn p ++ names
  read : ∀ path bytes, t.read path = .ok bytes → t'.read path = .ok bytes

theorem Gains.trans {dir : String} {t t' t'' : FileTree} {names names' : List String}
    (h : Gains dir t names t') (h' : Gains dir t' names' t'') :
    Gains dir t (names ++ names') t'' := by
  constructor
  · intro p hp
    obtain ⟨hp', hnames⟩ := h.names p hp
    obtain ⟨hp'', hnames'⟩ := h'.names p hp'
    exact ⟨hp'', by rw [hnames', hnames, List.append_assoc]⟩
  · exact fun path bytes hr => h'.read path bytes (h.read path bytes hr)

theorem Gains.set {dir name : String} {t : FileTree} {p : Place} (hp : t.dirAt dir = .ok p)
    (hfree : t.find? (p ++ [name]) = none) (e : Entry) :
    Gains dir t [name] (t.set (p ++ [name]) e) := by
  constructor
  · intro q hq
    rw [hp] at hq
    cases hq
    exact ⟨FileTree.dirAt_set_free hfree e hp, FileTree.namesIn_set_free hfree e⟩
  · exact fun path bytes hr => FileTree.read_set_free hfree e hr

section Saving

variable {format : Format K} {limits : Limits} {digest : Bytes → String} {dir : String}

/-- A file under a new name goes to a free place, and nothing else changes. -/
theorem write_new {j j' : Journal} {name : String} {bytes : Bytes} {failure : DiskError → Failure}
    {out out' : String} {u : Unit} (hname : Disk.Plain name)
    (hnew : ∀ p, j.tree.dirAt dir = .ok p → name ∉ j.tree.namesIn p) (hj : Untouched j)
    (h : after (orFail (Disk.write (Disk.join dir name) bytes) failure) out j =
      ((.ok u, out'), j')) :
    (∃ p, j.tree.dirAt dir = .ok p) ∧ Gains dir j.tree [name] j'.tree ∧
      j'.tree.read (Disk.join dir name) = .ok bytes ∧ Untouched j' := by
  rw [after_orFail] at h
  have hrun : (Disk.write (Disk.join dir name) bytes : StateM Journal _).run j =
      Journal.tryChange (·.write (Disk.join dir name) bytes) j := rfl
  rw [hrun, Journal.tryChange] at h
  cases hw : j.tree.write (Disk.join dir name) bytes with
  | error e =>
    rw [Journal.write, hw] at h
    cases hs : j.tree.site (Disk.join dir name) <;> rw [hs] at h <;> cases h
  | ok t =>
    obtain ⟨p, hp, hfree, hsite, rfl, hread⟩ := FileTree.write_join hname hw hnew
    rw [Journal.write, hsite, hw] at h
    cases h
    exact ⟨⟨p, hp⟩, .set hp hfree _, hread, hj.wrote hfree bytes⟩

structure Distinguished (extension : String) : Prop where
  slash : '/' ∉ extension.toList
  length : extension.length = 3
  other : extension ≠ "dec"

variable {stem : String} {stems : List String} {t t' : FileTree} {p : Place}

omit [ProductionKind K] in
theorem Archived.unnamed (h : Archived format limits digest dir stems t)
    (he : Distinguished format.extension) (hnew : stem ∉ stems) (hp : t.dirAt dir = .ok p) :
    artifact stem format.extension ∉ t.namesIn p ∧ artifact stem "dec" ∉ t.namesIn p := by
  have hlen : format.extension.length = "dec".length := he.length
  rw [(h.names p hp).mem_iff, (h.names p hp).mem_iff, List.mem_flatMap, List.mem_flatMap]
  constructor
  · rintro ⟨old, hold, hmem⟩
    rcases List.mem_cons.1 hmem with heq | hmem
    · exact hnew ((artifact_inj rfl heq).1 ▸ hold)
    · exact he.other (artifact_inj hlen (List.mem_singleton.1 hmem)).2
  · rintro ⟨old, hold, hmem⟩
    rcases List.mem_cons.1 hmem with heq | hmem
    · exact he.other (artifact_inj hlen heq.symm).2
    · exact hnew ((artifact_inj rfl (List.mem_singleton.1 hmem)).1 ▸ hold)

omit [ProductionKind K] in
/-- A file and its decisions add their stem. -/
theorem Archived.add {file decisions : Bytes} {w : Walk K}
    (h : Archived format limits digest dir stems t) (hnew : digest file ∉ stems)
    (hp : t.dirAt dir = .ok p)
    (hgains : Gains dir t
      [artifact (digest file) format.extension, artifact (digest file) "dec"] t')
    (hfile : t'.read (Disk.join dir (artifact (digest file) format.extension)) = .ok file)
    (hdecisions : t'.read (Disk.join dir (artifact (digest file) "dec")) = .ok decisions)
    (hgen : format.grammar.generate limits decisions = .ok w) (hw : w.file = file) :
    Archived format limits digest dir (digest file :: stems) t' := by
  obtain ⟨hp', hnames⟩ := hgains.names p hp
  refine ⟨List.nodup_cons.2 ⟨hnew, h.nodup⟩, ?_, ?_⟩
  · intro q hq
    rw [hp'] at hq
    cases hq
    rw [hnames]
    exact ((h.names p hp).append_right _).trans List.perm_append_comm
  · intro stem hstem
    rcases List.mem_cons.1 hstem with rfl | hstem
    · exact ⟨file, decisions, w, hfile, hdecisions, rfl, hgen, hw⟩
    · obtain ⟨file', decisions', w', hfile', hdecisions', hrest⟩ := h.replays stem hstem
      exact ⟨file', decisions', w', hgains.read _ _ hfile', hgains.read _ _ hdecisions', hrest⟩

structure Tidy (format : Format K) (limits : Limits) (digest : Bytes → String) (dir : String)
    (s : ArtifactStore) (j : Journal) : Prop where
  directory : s.dir = dir
  extension : s.extension = format.extension
  archived : Archived format limits digest dir s.seen j.tree
  untouched : Untouched j

omit [ProductionKind K] in
theorem Tidy.save {s s' : ArtifactStore} {j j' : Journal} {file decisions : Bytes} {w : Walk K}
    {out out' : String} (h : Tidy format limits digest dir s j)
    (he : Distinguished format.extension) (hslash : ∀ bytes, '/' ∉ (digest bytes).toList)
    (hgen : format.grammar.generate limits decisions = .ok w) (hw : w.file = file)
    (hsave : after (s.save digest file decisions) out j = ((.ok s', out'), j')) :
    Tidy format limits digest dir s' j' := by
  rw [ArtifactStore.save] at hsave
  dsimp only at hsave
  split at hsave
  · cases hsave
    exact h
  case isFalse hseen =>
    have hnew : digest file ∉ s.seen := by simpa using hseen
    have hplain : Disk.Plain (artifact (digest file) format.extension) :=
      artifact_plain (hslash file) he.slash he.length
    have hplain' : Disk.Plain (artifact (digest file) "dec") :=
      artifact_plain (hslash file) (by decide) rfl
    have hnames := fun p hp => h.archived.unnamed he hnew (p := p) hp
    rw [h.directory, h.extension, artifact_dec] at hsave
    obtain ⟨b, out₁, j₁, hholds, hsave⟩ := of_after_bind hsave
    have habsent : (Disk.holds (Disk.join dir (digest file ++ "." ++ format.extension)) :
        StateM Journal Bool).run j = (false, j) := by
      show ((j.tree.lookup? (Disk.join dir (artifact _ format.extension))).isSome, j) = _
      rw [FileTree.lookup?_join hplain fun p hp => (hnames p hp).1]
      rfl
    rw [after_lift, habsent] at hholds
    cases hholds
    obtain ⟨u, out₂, j₂, hfile, hsave⟩ := of_after_bind hsave
    obtain ⟨v, out₃, j₃, hdecisions, hsave⟩ := of_after_bind hsave
    cases hsave
    obtain ⟨⟨p, hp⟩, hgains, hread, huntouched⟩ :=
      write_new hplain (fun p hp => (hnames p hp).1) h.untouched hfile
    have hother : ∀ q, j₂.tree.dirAt dir = .ok q →
        artifact (digest file) "dec" ∉ j₂.tree.namesIn q := by
      intro q hq
      obtain ⟨hp', hlist⟩ := hgains.names p hp
      rw [hp'] at hq
      cases hq
      rw [hlist, List.mem_append, List.mem_singleton]
      rintro (hold | hsame)
      · exact (hnames p hp).2 hold
      · exact he.other (artifact_inj (he.length.trans rfl) hsame.symm).2
    obtain ⟨-, hgains', hread', huntouched'⟩ := write_new hplain' hother huntouched hdecisions
    refine ⟨rfl, rfl, ?_, huntouched'⟩
    exact h.archived.add hnew hp (hgains.trans hgains') (hgains'.read _ _ hread) hread' hgen hw

end Saving

section Looping

variable {format : Format K} {limits : Limits} {digest : Bytes → String} {dir : String}
  {corpus : Corpus K} {c c' : Campaign} {j j' : Journal} {out out' : String}

theorem Tidy.round {total i : Nat} (h : Tidy format limits digest dir c.store j)
    (he : Distinguished format.extension) (hslash : ∀ bytes, '/' ∉ (digest bytes).toList)
    (hround : after (fuzzRound digest ⟨format.grammar, limits⟩ corpus total i c) out j =
      ((.ok c', out'), j')) : Tidy format limits digest dir c'.store j' := by
  rw [fuzzRound] at hround
  cases hp : produce ⟨format.grammar, limits⟩ corpus c.source with
  | mk produced source =>
    rw [hp] at hround
    dsimp only at hround
    cases produced with
    | none =>
      cases hround
      exact h
    | some walk =>
      obtain ⟨store, out₁, j₁, hsave, hround⟩ := of_after_bind hround
      cases hround
      exact h.save he hslash (produce_generates hp) rfl hsave

theorem Tidy.rounds {total left : Nat} (h : Tidy format limits digest dir c.store j)
    (he : Distinguished format.extension) (hslash : ∀ bytes, '/' ∉ (digest bytes).toList)
    (hrounds : after (fuzzRounds digest ⟨format.grammar, limits⟩ corpus total left c) out j =
      ((.ok c', out'), j')) : Tidy format limits digest dir c'.store j' := by
  induction left generalizing c j out with
  | zero =>
    cases hrounds
    exact h
  | succ left ih =>
    obtain ⟨c₁, out₁, j₁, hround, hrest⟩ := of_after_bind hrounds
    exact ih (h.round he hslash hround) hrest

omit [ProductionKind K] in
theorem Tidy.start {t : FileTree} (he : ∀ p, t.dirAt dir = .ok p → t.namesIn p = []) :
    Tidy format limits digest dir ⟨dir, format.extension, []⟩ ⟨t, []⟩ := by
  refine ⟨rfl, rfl, ⟨List.nodup_nil, ?_, by simp⟩, ⟨List.nodup_nil, by simp⟩⟩
  intro p hp
  rw [he p hp]
  exact .nil

end Looping

/-- Whatever comes of it, creating a store plants its directory and writes nothing. -/
theorem create_plants (dir extension out : String) (t : FileTree) :
    ∃ r, after (ArtifactStore.create dir extension) out (⟨t, []⟩ : Journal) =
      ((r, out), ⟨t.plantDir dir, []⟩) ∧ ∀ store, r = .ok store → store = ⟨dir, extension, []⟩ := by
  have hecho : Echoes Journal.writes (Disk.createDirs dir) (Disk.createDirs dir) :=
    createDirs_echoes (fun _ _ => rfl) dir
  obtain ⟨-, htree, hwrites⟩ := hecho ⟨t, []⟩
  rw [ArtifactStore.create, after_bind, after_orFail]
  generalize (Disk.createDirs dir : StateM Journal _).run ⟨t, []⟩ = made at htree hwrites ⊢
  obtain ⟨r, ⟨tree, writes⟩⟩ := made
  cases htree
  cases hwrites
  cases r with
  | error e => exact ⟨_, rfl, by simp⟩
  | ok u =>
    refine ⟨_, rfl, ?_⟩
    rintro store ⟨⟩
    rfl

def WriteError (e : Failure) : Prop := ∃ path error, e = .write path error

section Failing

variable {σ : Type} [Disk (StateM σ)]

theorem save_fails (digest : Bytes → String) (s : ArtifactStore) (file decisions : Bytes) :
    Fails WriteError (s.save digest file decisions : Task (StateM σ) ArtifactStore) := by
  rw [ArtifactStore.save]
  dsimp only
  split
  · exact .pure _
  · refine (Fails.lift _).bind fun b => ?_
    split
    · exact .pure _
    · exact (Fails.orFail _ fun e => ⟨_, e, rfl⟩).bind fun _ =>
        (Fails.orFail _ fun e => ⟨_, e, rfl⟩).bind fun _ => .pure _

theorem fuzzRound_fails (digest : Bytes → String) (m : Mutator K) (corpus : Corpus K)
    (total i : Nat) (c : Campaign) :
    Fails WriteError (fuzzRound digest m corpus total i c : Task (StateM σ) Campaign) := by
  rw [fuzzRound]
  rcases produce m corpus c.source with ⟨produced, source⟩
  cases produced with
  | none => exact (Fails.pure _).bind fun _ => (Fails.say _).bind fun _ => .pure _
  | some walk =>
    exact (save_fails _ _ _ _).bind fun _ => (Fails.pure _).bind fun _ =>
      (Fails.say _).bind fun _ => .pure _

theorem fuzzRounds_fails (digest : Bytes → String) (m : Mutator K) (corpus : Corpus K)
    (total left : Nat) (c : Campaign) :
    Fails WriteError (fuzzRounds digest m corpus total left c : Task (StateM σ) Campaign) := by
  induction left generalizing c with
  | zero => exact .pure c
  | succ left ih => exact (fuzzRound_fails _ _ _ _ _ c).bind ih

end Failing

/-- A fuzz loop that meets no write error. The output directory, which is created if it is
missing, was empty. -/
structure Fuzzed (format : Format K) (digest : Bytes → String) (limits : Limits) (entropy : Nat)
    (elapsed : String) (plan : FuzzPlan) (t : FileTree) (r : Except Failure Unit) (out : String)
    (t' : FileTree) : Prop where
  ran : after (fuzz digest format limits ⟨entropy, pure elapsed⟩ plan) "" t = ((r, out), t')
  wrote : ∀ e, r = .error e → ¬ WriteError e
  vacant : ∀ p, (t.plantDir plan.outDir).dirAt plan.outDir = .ok p →
    (t.plantDir plan.outDir).namesIn p = []

/-- Every file in the output directory is replayed by the decisions beside it, a loop that ends
well counts as many as there are, and no place was written twice on the way. -/
structure Replayable (format : Format K) (digest : Bytes → String) (limits : Limits)
    (entropy : Nat) (elapsed : String) (plan : FuzzPlan) (t : FileTree) (r : Except Failure Unit)
    (out : String) (t' : FileTree) (stems : List String) : Prop where
  archived : Archived format limits digest plan.outDir stems t'
  counted : r = .ok () → ∃ c before,
    after (campaign digest format limits plan) "" t = ((.ok c, before), t') ∧
    out = before ++ fuzzSummary plan elapsed c ∧ c.store.distinct = stems.length
  untouched : ∃ j, after (fuzz digest format limits ⟨entropy, pure elapsed⟩ plan) "" ⟨t, []⟩ =
    ((r, out), j) ∧ j.tree = t' ∧ Untouched j

section Campaigns

variable {format : Format K} {digest : Bytes → String} {limits : Limits} {plan : FuzzPlan}
  {t : FileTree}

/-- A campaign that meets no write error leaves the directory archived. -/
theorem campaign_tidy {r : Except Failure Campaign} {out : String} {j : Journal}
    (h : after (campaign digest format limits plan) "" ⟨t, []⟩ = ((r, out), j))
    (hwrote : ∀ e, r = .error e → ¬ WriteError e)
    (hvacant : ∀ p, (t.plantDir plan.outDir).dirAt plan.outDir = .ok p →
      (t.plantDir plan.outDir).namesIn p = [])
    (he : Distinguished format.extension) (hslash : ∀ bytes, '/' ∉ (digest bytes).toList) :
    ∃ store, Tidy format limits digest plan.outDir store j ∧ ∀ c, r = .ok c → c.store = store := by
  have hstart : Tidy format limits digest plan.outDir ⟨plan.outDir, format.extension, []⟩
      ⟨t.plantDir plan.outDir, []⟩ := .start hvacant
  obtain ⟨r₁, hcreate, hstore⟩ := create_plants plan.outDir format.extension "" t
  rw [campaign, after_bind, hcreate] at h
  cases r₁ with
  | error e =>
    cases h
    exact ⟨_, hstart, by simp⟩
  | ok store =>
    obtain rfl := hstore store rfl
    dsimp only at h
    have hsame := (loadPlanSeeds_retells (id : Journal → Journal) format limits plan.seedPaths ""
      ⟨t.plantDir plan.outDir, []⟩).2.2
    rw [after_bind] at h
    rcases hload : after (loadPlanSeeds format limits plan.seedPaths) ""
      (⟨t.plantDir plan.outDir, []⟩ : Journal) with ⟨⟨r₂, out₂⟩, j₂⟩
    rw [hload] at h hsame
    replace hsame : j₂ = ⟨t.plantDir plan.outDir, []⟩ := hsame
    subst hsame
    cases r₂ with
    | error e =>
      cases h
      exact ⟨_, hstart, by simp⟩
    | ok corpus =>
      dsimp only at h
      cases r with
      | error e =>
        have hfail := fuzzRounds_fails digest ⟨format.grammar, limits⟩ corpus plan.iterations
          plan.iterations _ out₂ (⟨t.plantDir plan.outDir, []⟩ : Journal) e (by rw [h])
        exact absurd hfail (hwrote e rfl)
      | ok c =>
        refine ⟨c.store, hstart.rounds he hslash h, ?_⟩
        rintro c' ⟨⟩
        rfl

theorem Fuzzed.replayable {entropy : Nat} {elapsed out : String} {r : Except Failure Unit}
    {t' : FileTree} (h : Fuzzed format digest limits entropy elapsed plan t r out t')
    (he : Distinguished format.extension) (hslash : ∀ bytes, '/' ∉ (digest bytes).toList) :
    ∃ stems, Replayable format digest limits entropy elapsed plan t r out t' stems := by
  have hran := h.ran
  obtain ⟨hresult, htree, -⟩ := campaign_retells digest format limits plan "" ⟨t, []⟩
  rw [fuzz_eq, after_bind] at hran
  rcases hplain : after (campaign digest format limits plan) "" t with ⟨⟨r₁, before⟩, t₁⟩
  rcases hj : after (campaign digest format limits plan) "" (⟨t, []⟩ : Journal) with ⟨⟨r₂, out₂⟩, j⟩
  rw [hplain, hj] at hresult htree
  rw [hplain] at hran
  cases hresult
  cases htree
  have htold : after (fuzz digest format limits ⟨entropy, pure elapsed⟩ plan) "" (⟨t, []⟩ : Journal)
      = ((r, out), j) ∧ j.tree = t' := by
    rw [fuzz_eq, after_bind, hj]
    cases r₁ <;> cases hran <;> exact ⟨rfl, rfl⟩
  obtain ⟨store, htidy, hstore⟩ := campaign_tidy hj
    (by
      rintro e rfl
      cases hran
      exact h.wrote e rfl) h.vacant he hslash
  refine ⟨store.seen, ?_, ?_, j, htold.1, htold.2, htidy.untouched⟩
  · exact htold.2 ▸ htidy.archived
  · rintro rfl
    cases r₁ with
    | error e => cases hran
    | ok c =>
      cases hran
      exact ⟨c, before, hplain, rfl, congrArg ArtifactStore.distinct (hstore c rfl)⟩

end Campaigns

theorem png_distinguished : Distinguished png.extension := ⟨by decide, rfl, by decide⟩

theorem riff_distinguished : Distinguished riff.extension := ⟨by decide, rfl, by decide⟩

/-- Whatever the digest, the settings, the plan and the seeds: the outputs of a fuzz loop are
replayed by the decisions beside them, and none of them is ever written over. -/
theorem fuzz_replayable (h : Bytes → Bytes) (limits : Limits) (entropy : Nat) (elapsed : String)
    (plan : FuzzPlan) (t : FileTree) (r : Except Failure Unit) (out : String) (t' : FileTree) :
    (Fuzzed png (fun bytes => Text.hex (h bytes)) limits entropy elapsed plan t r out t' →
      ∃ stems, Replayable png (fun bytes => Text.hex (h bytes)) limits entropy elapsed plan t r out
        t' stems) ∧
    (Fuzzed riff (fun bytes => Text.hex (h bytes)) limits entropy elapsed plan t r out t' →
      ∃ stems, Replayable riff (fun bytes => Text.hex (h bytes)) limits entropy elapsed plan t r out
        t' stems) :=
  ⟨fun hf => hf.replayable png_distinguished fun bytes => slash_not_mem_hex (h bytes),
    fun hf => hf.replayable riff_distinguished fun bytes => slash_not_mem_hex (h bytes)⟩

def sprint : FuzzPlan := ⟨2, "out", 11, []⟩

def sprintLimits : Limits := { streamCapacity := 40 }

def ending (bytes : Bytes) : Bytes := bytes.reverse.take 4

def sprintRun (format : Format K) : (Except Failure Unit × String) × FileTree :=
  after (fuzz (fun bytes => Text.hex (ending bytes)) format sprintLimits ⟨0, pure "1s"⟩ sprint) ""
    FileTree.empty

theorem sprint_fuzzed (format : Format K) (h : (sprintRun format).1.1.isOk = true) :
    Fuzzed format (fun bytes => Text.hex (ending bytes)) sprintLimits 0 "1s" sprint FileTree.empty
      (sprintRun format).1.1 (sprintRun format).1.2 (sprintRun format).2 := by
  have hdir : ((FileTree.empty.plantDir sprint.outDir).dirAt sprint.outDir).toOption =
      some ["tmp", "work", "out"] := by decide +kernel
  refine ⟨rfl, ?_, ?_⟩
  · intro e he
    rw [he] at h
    cases h
  · intro p hp
    rw [hp] at hdir
    cases hdir
    decide +kernel

/-- Both loops save one file: the files of the first one end alike, and the other one fails
once. -/
theorem fuzz_replayable_sprint :
    (sprintRun png).1.1.isOk = true ∧
    (∃ stems, Replayable png (fun bytes => Text.hex (ending bytes)) sprintLimits 0 "1s" sprint
      FileTree.empty (sprintRun png).1.1 (sprintRun png).1.2 (sprintRun png).2 stems) ∧
    (sprintRun riff).1.1.isOk = true ∧
    (∃ stems, Replayable riff (fun bytes => Text.hex (ending bytes)) sprintLimits 0 "1s" sprint
      FileTree.empty (sprintRun riff).1.1 (sprintRun riff).1.2 (sprintRun riff).2 stems) := by
  have hpng : (sprintRun png).1.1.isOk = true := by decide +kernel
  have hriff : (sprintRun riff).1.1.isOk = true := by decide +kernel
  exact ⟨hpng, (fuzz_replayable ending sprintLimits 0 "1s" sprint FileTree.empty _ _ _).1
      (sprint_fuzzed png hpng),
    hriff, (fuzz_replayable ending sprintLimits 0 "1s" sprint FileTree.empty _ _ _).2
      (sprint_fuzzed riff hriff)⟩

end DecisionWalk.Command
