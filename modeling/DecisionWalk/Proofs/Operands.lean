import DecisionWalk.Mutation.Random
import DecisionWalk.Proofs.Corpora
import DecisionWalk.Proofs.Points

/-!
# What a random mutation works on

A random choice finds a member of any list that has one. The donors that a corpus
offers for a chunk are the chunks of its files that are compatible with it, so a
chunk of a file of the corpus always has a donor, itself at least. What is offered
for a swap is apart from the chunk, and whichever of the two starts first ends
before the other starts, as neither is empty.
-/

set_option autoImplicit false

namespace DecisionWalk

namespace Random

variable {ρ α : Type} [RandomSource ρ]

theorem below_lt (r : ρ) {n : Nat} (hn : 0 < n) : (below r n).1 < n := by
  have hword : (RandomSource.word r).1.toNat < 0x100000000 := (RandomSource.word r).1.toNat_lt
  have hscaled : (RandomSource.word r).1.toNat * n ≤ 0xFFFFFFFF * n :=
    Nat.mul_le_mul_right n (by omega)
  have hsecond : (RandomSource.word (RandomSource.word r).2).1.toNat * n / 0x100000000 < n := by
    rw [Nat.div_lt_iff_lt_mul (by decide), Nat.mul_comm]
    exact Nat.mul_lt_mul_of_pos_left (RandomSource.word _).1.toNat_lt hn
  rw [below]
  dsimp only
  split
  · split <;> dsimp only <;> omega
  · dsimp only
    omega

/-- A list with a member gives one, and an empty list leaves the source alone. -/
theorem pick?_cases (r : ρ) (items : List α) :
    items = [] ∧ pick? r items = (none, r) ∨
      ∃ a ∈ items, items[(below r items.length).1]? = some a ∧
        pick? r items = (some a, (below r items.length).2) := by
  by_cases hitems : items = []
  · subst hitems
    exact Or.inl ⟨rfl, rfl⟩
  · have hlt := below_lt r (List.length_pos_iff.2 hitems)
    have hget := List.getElem?_eq_getElem hlt
    refine Or.inr ⟨_, List.getElem_mem hlt, hget, ?_⟩
    rw [pick?, if_neg (mt List.isEmpty_iff.1 hitems)]
    exact congrArg (fun o => (o, (below r items.length).2)) hget

end Random

variable {K : Type} [DecidableEq K]

namespace Corpus

variable {files : List (CorpusFile K)} {chunk donor : Chunk K}

/-- A corpus offers what the check of a replacement lets pass, from all its files. -/
theorem donors_eq (files : List (CorpusFile K)) (chunk : Chunk K) :
    (ofFiles files).donors chunk = gathered (Mutator.compatible chunk) files := by
  have hfiled := ofFiles_filed files
  cases hoptional : chunk.optional with
  | true =>
    have hp : Mutator.compatible chunk = fun b => b.optional := by
      funext b
      rw [Mutator.compatible, hoptional]
      cases b.optional <;> rfl
    rw [donors, if_pos hoptional, hp]
    exact hfiled.optional
  | false =>
    have hp : Mutator.compatible chunk = mandatoryOf chunk.kind := by
      funext b
      rw [Mutator.compatible, hoptional, mandatoryOf, BEq.comm]
      cases b.optional <;> rfl
    rw [donors, hoptional, if_neg Bool.false_ne_true, hp]
    exact hfiled.mandatory chunk.kind

theorem donors_ne_nil {number : Nat} {f : CorpusFile K} (hf : files[number]? = some f)
    (hc : chunk ∈ f.walk.chunks) : (ofFiles files).donors chunk ≠ [] := by
  have hself : Mutator.compatible chunk chunk = true := by
    rw [Mutator.compatible]
    cases chunk.optional with
    | true => rfl
    | false => exact beq_self_eq_true _
  have hmem : { chunk with fileIndex := number } ∈ (ofFiles files).donors chunk := by
    rw [donors_eq]
    exact mem_gathered.2 ⟨f, hf, Walk.mem_stamped.2 ⟨chunk, hc, hself, rfl⟩⟩
  exact List.ne_nil_of_mem hmem

def Holds (files : List (CorpusFile K)) (donor : Chunk K) : Prop :=
  ∃ f, files[donor.fileIndex]? = some f ∧ ∃ c ∈ f.walk.chunks, donor.decisions = c.decisions

omit [DecidableEq K] in
theorem gathered_holds {p : Chunk K → Bool} (h : donor ∈ gathered p files)
    (hp : ∀ c : Chunk K, p { c with fileIndex := donor.fileIndex } = p c) :
    p donor = true ∧ Holds files donor := by
  obtain ⟨f, hf, hmem⟩ := mem_gathered.1 h
  obtain ⟨c, hc, hpasses, hsame⟩ := Walk.mem_stamped.1 hmem
  have hstamped := hp c
  rw [hsame] at hstamped
  exact ⟨hstamped.trans hpasses, f, hf, c, hc, by rw [← hsame]⟩

theorem mem_donors (h : donor ∈ (ofFiles files).donors chunk) :
    Mutator.compatible chunk donor = true ∧ Holds files donor :=
  gathered_holds (donors_eq files chunk ▸ h) fun _ => rfl

theorem mem_optionalChunks (h : donor ∈ (ofFiles files).optionalChunks) :
    donor.optional = true ∧ Holds files donor :=
  gathered_holds ((ofFiles_filed files).optional ▸ h) fun _ => rfl

theorem file_of_getElem {number : Nat} {f : CorpusFile K} (hf : files[number]? = some f) :
    (ofFiles files).file number = .ok f := by
  rw [file, ← Array.getElem?_toList, (ofFiles_filed files).all, hf]

end Corpus

namespace Walk

structure Sliceable (w : Walk K) : Prop where
  chunks : w.chunks ≠ []
  laden : ∀ c ∈ w.chunks, c.decisions.start < c.decisions.stop
  fits : ∀ c ∈ w.chunks, c.decisions.stop ≤ w.decisions.length
  points : ∀ p ∈ w.points, p.decisionOffset ≤ w.decisions.length

omit [DecidableEq K] in
theorem Sliceable.span {w : Walk K} (hw : w.Sliceable) {c : Chunk K} (hc : c ∈ w.chunks) :
    c.decisions.Fits w.decisions :=
  ⟨Nat.le_of_lt (hw.laden c hc), hw.fits c hc⟩

theorem sliceable_of_laden {g : Grammar K Unit} {limits : Limits} {origin : Origin}
    {watches ws : List (Watch K)} {w : Walk K}
    (h : (g.runFrom limits origin watches).outcome = .ok (w, ws))
    (hladen : w.chunks ≠ [] ∧ ∀ c ∈ w.chunks, c.decisions.start < c.decisions.stop) :
    w.Sliceable := by
  obtain ⟨t, ht, -, -, hpoints⟩ := Grammar.runFrom_tracked h
  refine ⟨hladen.1, hladen.2, fun c hc => (Grammar.chunk_fits h hc).2, ?_⟩
  intro p hp
  rw [hpoints] at hp
  exact ht.marked.within p (List.mem_reverse.1 (List.mem_mergeSort.1 hp))

end Walk

theorem Mutator.mem_partners {walk : Walk K} {a b : Chunk K} :
    b ∈ partners walk a ↔ b ∈ walk.chunks ∧ compatible a b = true ∧
      (a.decisions.stop ≤ b.decisions.start ∨ b.decisions.stop ≤ a.decisions.start) := by
  simp [partners]

end DecisionWalk
