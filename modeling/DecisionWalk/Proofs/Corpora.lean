import DecisionWalk.Corpus.Basic
import DecisionWalk.Proofs.Nesting
import DecisionWalk.Proofs.Ranges
import Mathlib.Data.List.Induction

/-!
# The indexes of a corpus

The lists of a corpus are shared by its files and only grow, so the range that a
file got keeps showing the chunks of that file. A corpus therefore answers from
its indexes what a search through all its files would answer.
-/

set_option autoImplicit false

namespace DecisionWalk

variable {K : Type}

theorem nodup_eraseDups {α : Type} [DecidableEq α] : ∀ xs : List α, xs.eraseDups.Nodup
  | [] => List.nodup_nil
  | a :: as => by
    rw [List.eraseDups_cons]
    refine List.nodup_cons.2 ⟨?_, nodup_eraseDups (as.filter fun b => !b == a)⟩
    simp [List.mem_eraseDups]
termination_by xs => xs.length
decreasing_by exact Nat.lt_succ_of_le (List.length_filter_le _ _)

theorem Grammar.run_of_made [DecidableEq K] {g : Grammar K Unit} {limits : Limits} {bytes : Bytes}
    {w : Walk K} (h : g.parse limits bytes = .ok w ∨ g.generate limits bytes = .ok w) :
    ∃ origin ws, (g.runFrom limits origin []).outcome = .ok (w, ws) := by
  rcases h with h | h
  · exact ⟨.input bytes, outcome_ok h⟩
  · exact ⟨.decisions bytes, outcome_ok h⟩

/-- No chunk of a walk reaches past its decisions. -/
theorem Grammar.chunk_fits [DecidableEq K] {g : Grammar K Unit} {limits : Limits}
    {origin : Origin} {watches ws : List (Watch K)} {w : Walk K}
    (h : (g.runFrom limits origin watches).outcome = .ok (w, ws)) {c : Chunk K}
    (hc : c ∈ w.chunks) : c.decisions.Fits w.decisions := by
  obtain ⟨t, ht, hstack, hchunks, -⟩ := runFrom_tracked h
  obtain ⟨i, hi⟩ := List.getElem?_of_mem hc
  rw [hchunks, Array.getElem?_toList] at hi
  have hclosed : ∀ o ∈ t.stack, o.slot ≠ i := by simp [hstack]
  exact (ht.nested i c hi hclosed).decisions

namespace Walk

def stamped (w : Walk K) (p : Chunk K → Bool) (number : Nat) : List (Chunk K) :=
  (w.chunks.filter p).map fun chunk => { chunk with fileIndex := number }

theorem mem_stamped {w : Walk K} {p : Chunk K → Bool} {number : Nat} {chunk : Chunk K} :
    chunk ∈ w.stamped p number ↔
      ∃ c ∈ w.chunks, p c = true ∧ { c with fileIndex := number } = chunk := by
  simp [stamped, and_assoc]

def Made [DecidableEq K] (w : Walk K) : Prop :=
  ∃ (g : Grammar K Unit) (limits : Limits) (bytes : Bytes),
    g.parse limits bytes = .ok w ∨ g.generate limits bytes = .ok w

theorem Made.decisions_fit [DecidableEq K] {w : Walk K} (h : w.Made) {c : Chunk K}
    (hc : c ∈ w.chunks) : c.decisions.Fits w.decisions := by
  obtain ⟨g, limits, bytes, hw⟩ := h
  obtain ⟨origin, ws, hrun⟩ := Grammar.run_of_made hw
  exact Grammar.chunk_fits hrun hc

end Walk

namespace Corpus

section Gathering

def gathered (p : Chunk K → Bool) (files : List (CorpusFile K)) : List (Chunk K) :=
  files.zipIdx.flatMap fun (f, number) => f.walk.stamped p number

def share (p : Chunk K → Bool) (files : List (CorpusFile K)) (number : Nat) : List (Chunk K) :=
  match files[number]? with
  | some f => f.walk.stamped p number
  | none => []

def mandatoryOf [DecidableEq K] (kind : K) (chunk : Chunk K) : Bool :=
  !chunk.optional && chunk.kind == kind

variable {p : Chunk K → Bool} {files : List (CorpusFile K)}

theorem gathered_append (p : Chunk K → Bool) (files : List (CorpusFile K)) (f : CorpusFile K) :
    gathered p (files ++ [f]) = gathered p files ++ f.walk.stamped p files.length := by
  simp [gathered, List.zipIdx_append]

theorem share_append_lt {number : Nat} (h : number < files.length) (f : CorpusFile K) :
    share p (files ++ [f]) number = share p files number := by
  rw [share, share, List.getElem?_append_left h]

theorem share_append_length (p : Chunk K → Bool) (files : List (CorpusFile K)) (f : CorpusFile K) :
    share p (files ++ [f]) files.length = f.walk.stamped p files.length := by
  rw [share, List.getElem?_concat_length]

theorem share_of_le {number : Nat} (h : files.length ≤ number) : share p files number = [] := by
  rw [share, List.getElem?_eq_none h]

theorem mem_gathered {chunk : Chunk K} : chunk ∈ gathered p files ↔
    ∃ f, files[chunk.fileIndex]? = some f ∧ chunk ∈ f.walk.stamped p chunk.fileIndex := by
  simp only [gathered, List.mem_flatMap, Prod.exists, List.mem_zipIdx_iff_getElem?]
  constructor
  · rintro ⟨f, number, hf, hmem⟩
    obtain ⟨c, hc, hp, rfl⟩ := Walk.mem_stamped.1 hmem
    exact ⟨f, hf, hmem⟩
  · rintro ⟨f, hf, hmem⟩
    exact ⟨f, _, hf, hmem⟩

/-- The stamps tell the files apart, so the share of a file is what carries its number. -/
theorem gathered_filter (p : Chunk K → Bool) (files : List (CorpusFile K)) (number : Nat) :
    (gathered p files).filter (·.fileIndex == number) = share p files number := by
  induction files using List.reverseRecOn with
  | nil => rfl
  | append_singleton files f ih =>
    have hlast : (f.walk.stamped p files.length).filter (·.fileIndex == number) =
        if files.length = number then f.walk.stamped p files.length else [] := by
      rw [Walk.stamped, List.filter_map]
      split <;> simp_all [Function.comp_def]
    rw [gathered_append, List.filter_append, ih, hlast]
    rcases Nat.lt_trichotomy number files.length with h | h | h
    · rw [if_neg (Nat.ne_of_gt h), share_append_lt h, List.append_nil]
    · rw [if_pos h.symm, h, share_append_length, share_of_le (Nat.le_refl _), List.nil_append]
    · have hle : (files ++ [f]).length ≤ number := by
        rw [List.length_append]
        exact h
      rw [if_neg (Nat.ne_of_lt h), share_of_le (Nat.le_of_lt h), share_of_le hle]
      rfl

end Gathering

variable [DecidableEq K]

section Kinds

variable {kind k : K} {kinds : List K} {chunks : List (Chunk K)}
  {index : List (K × Array (Chunk K))}

def under (index : List (K × Array (Chunk K))) (kind : K) : List (Chunk K) :=
  ((index.lookup kind).getD #[]).toList

theorem chunksOfKind_eq (c : Corpus K) (kind : K) :
    c.chunksOfKind kind = under c.mandatory kind := by
  rw [chunksOfKind, under]
  cases c.mandatory.lookup kind <;> rfl

theorem under_cons (kind k : K) (old : Array (Chunk K)) (index : List (K × Array (Chunk K))) :
    under ((k, old) :: index) kind = if kind = k then old.toList else under index kind := by
  rw [under, List.lookup_cons]
  by_cases h : kind = k
  · simp [h]
  · simp [h, beq_eq_false_iff_ne.2 h, under]

theorem appendKind_span (kind : K) (chunks : List (Chunk K)) (index : List (K × Array (Chunk K))) :
    (appendKind kind chunks index).1 = .after (under index kind) chunks := by
  induction index with
  | nil =>
    rw [appendKind, Span.after]
    exact congrArg (Span.mk 0) (Nat.zero_add _).symm
  | cons entry index ih =>
    obtain ⟨k, old⟩ := entry
    rw [under_cons, appendKind]
    by_cases h : k = kind
    · rw [if_pos h, if_pos h.symm]
      rfl
    · rw [if_neg h, if_neg (Ne.symm h)]
      exact ih

theorem under_appendKind (kind : K) (chunks : List (Chunk K)) (index : List (K × Array (Chunk K)))
    (k : K) : under (appendKind kind chunks index).2 k =
      under index k ++ if k = kind then chunks else [] := by
  induction index with
  | nil =>
    rw [appendKind, under_cons]
    split <;> rfl
  | cons entry index ih =>
    obtain ⟨k', old⟩ := entry
    rw [appendKind, under_cons]
    by_cases hk : k' = kind
    · rw [if_pos hk, under_cons, ← hk]
      by_cases h : k = k'
      · simp [h]
      · simp [h]
    · rw [if_neg hk]
      show under ((k', old) :: (appendKind kind chunks index).2) k = _
      rw [under_cons, ih]
      by_cases h : k = k'
      · have hne : k ≠ kind := h ▸ hk
        rw [if_pos h, if_pos h, if_neg hne, List.append_nil]
      · rw [if_neg h, if_neg h]

theorem under_appendKinds (chunks : List (Chunk K)) (h : kinds.Nodup)
    (index : List (K × Array (Chunk K))) (k : K) :
    under (appendKinds chunks kinds index).2 k =
      under index k ++ if k ∈ kinds then chunks.filter (·.kind == k) else [] := by
  induction kinds generalizing index with
  | nil => simp [appendKinds]
  | cons kind kinds ih =>
    obtain ⟨hnew, hrest⟩ := List.nodup_cons.1 h
    have hstep : under (appendKinds chunks (kind :: kinds) index).2 k =
        under (appendKinds chunks kinds
          (appendKind kind (chunks.filter (·.kind == kind)) index).2).2 k := rfl
    rw [hstep, ih hrest, under_appendKind, List.append_assoc]
    by_cases hk : k = kind
    · subst hk
      simp [hnew]
    · simp [hk]

/-- Each kind gets the range that its chunks are appended at: the other kinds leave its list
alone. -/
theorem appendKinds_shares (chunks : List (Chunk K)) (h : kinds.Nodup)
    (index : List (K × Array (Chunk K))) :
    (appendKinds chunks kinds index).1 =
      kinds.map fun k => ⟨k, .after (under index k) (chunks.filter (·.kind == k))⟩ := by
  induction kinds generalizing index with
  | nil => rfl
  | cons kind kinds ih =>
    obtain ⟨hnew, hrest⟩ := List.nodup_cons.1 h
    have hstep : (appendKinds chunks (kind :: kinds) index).1 =
        ⟨kind, (appendKind kind (chunks.filter (·.kind == kind)) index).1⟩ ::
          (appendKinds chunks kinds
            (appendKind kind (chunks.filter (·.kind == kind)) index).2).1 := rfl
    rw [hstep, appendKind_span, ih hrest, List.map_cons]
    refine congrArg _ (List.map_congr_left ?_)
    intro k hk
    have hne : k ≠ kind := fun e => hnew (e ▸ hk)
    rw [under_appendKind, if_neg hne, List.append_nil]

end Kinds

def ofFiles (files : List (CorpusFile K)) : Corpus K :=
  files.foldl (fun c f => (c.add f.label f.walk).2) empty

theorem ofFiles_append (files : List (CorpusFile K)) (f : CorpusFile K) :
    ofFiles (files ++ [f]) = ((ofFiles files).add f.label f.walk).2 := by
  rw [ofFiles, List.foldl_append]
  rfl

section Adding

variable (c : Corpus K) (label : String) (w : Walk K)

theorem add_files : (c.add label w).2.files = c.files.push ⟨label, w⟩ := rfl

theorem add_optional : (c.add label w).2.optional.toList =
    c.optional.toList ++ w.stamped (·.optional) c.files.size := by
  simp [add, Walk.stamped, List.filter_map, Function.comp_def]

theorem add_optionalShares : (c.add label w).2.optionalShares = c.optionalShares.push
    (.after c.optional.toList (w.stamped (·.optional) c.files.size)) := by
  simp [add, Walk.stamped, List.filter_map, Function.comp_def, Span.after]

def kindsOf (w : Walk K) : List K :=
  ((w.chunks.filter (!·.optional)).map Chunk.kind).eraseDups

theorem kindsOf_nodup : (kindsOf w).Nodup := nodup_eraseDups _

theorem stamped_of_not_mem {w : Walk K} {kind : K} (h : kind ∉ kindsOf w) (number : Nat) :
    w.stamped (mandatoryOf kind) number = [] := by
  rw [Walk.stamped, List.map_eq_nil_iff, List.filter_eq_nil_iff]
  intro chunk hc hm
  rw [mandatoryOf, Bool.and_eq_true, beq_iff_eq] at hm
  refine h (List.mem_eraseDups.2 (List.mem_map.2 ⟨chunk, ?_, hm.2⟩))
  exact List.mem_filter.2 ⟨hc, hm.1⟩

/-- What adding a file does to the mandatory chunks, said with the chunks of the walk. -/
theorem add_mandatory_eq :
    ((c.add label w).2.mandatoryShares, (c.add label w).2.mandatory) =
      (c.mandatoryShares.push
        (appendKinds (w.stamped (!·.optional) c.files.size) (kindsOf w) c.mandatory).1,
        (appendKinds (w.stamped (!·.optional) c.files.size) (kindsOf w) c.mandatory).2) := by
  have hchunks : (w.chunks.map fun chunk => { chunk with fileIndex := c.files.size }).filter
      (!·.optional) = w.stamped (!·.optional) c.files.size := by
    rw [Walk.stamped, List.filter_map]
    rfl
  have hkinds : (w.stamped (!·.optional) c.files.size).map Chunk.kind =
      (w.chunks.filter (!·.optional)).map Chunk.kind := by
    rw [Walk.stamped, List.map_map]
    rfl
  simp only [add, hchunks, hkinds, kindsOf]

theorem filter_stamped (kind : K) (number : Nat) :
    (w.stamped (!·.optional) number).filter (·.kind == kind) =
      w.stamped (mandatoryOf kind) number := by
  rw [Walk.stamped, Walk.stamped, List.filter_map, List.filter_filter]
  refine congrArg _ (List.filter_congr fun chunk _ => ?_)
  rw [Function.comp_apply, mandatoryOf, Bool.and_comm]

theorem add_chunksOfKind (kind : K) : (c.add label w).2.chunksOfKind kind =
    c.chunksOfKind kind ++ w.stamped (mandatoryOf kind) c.files.size := by
  have h := (Prod.mk.inj (add_mandatory_eq c label w)).2
  rw [chunksOfKind_eq, chunksOfKind_eq, h, under_appendKinds _ (kindsOf_nodup w), filter_stamped]
  by_cases hk : kind ∈ kindsOf w
  · rw [if_pos hk]
  · rw [if_neg hk, stamped_of_not_mem hk]

theorem add_mandatoryShares : (c.add label w).2.mandatoryShares = c.mandatoryShares.push
    ((kindsOf w).map fun kind =>
      ⟨kind, .after (c.chunksOfKind kind) (w.stamped (mandatoryOf kind) c.files.size)⟩) := by
  have h := (Prod.mk.inj (add_mandatory_eq c label w)).1
  rw [h, appendKinds_shares _ (kindsOf_nodup w)]
  simp only [filter_stamped, chunksOfKind_eq]

end Adding

/-- Every indexed range lies within its list and shows the chunks of its file, and each mandatory
chunk of a file is in one of the file's ranges. -/
structure Filed (c : Corpus K) (files : List (CorpusFile K)) : Prop where
  all : c.files.toList = files
  optional : c.optional.toList = gathered (·.optional) files
  optionalShares : c.optionalShares.size = files.length
  optionalShare : ∀ (number : Nat) (span : Span), c.optionalShares[number]? = some span →
    span.Fits c.optional.toList ∧ span.of c.optional.toList = share (·.optional) files number
  mandatory : ∀ kind, c.chunksOfKind kind = gathered (mandatoryOf kind) files
  mandatoryShares : c.mandatoryShares.size = files.length
  mandatoryShare : ∀ (number : Nat) (shares : List (Share K)),
    c.mandatoryShares[number]? = some shares →
    (∀ s ∈ shares, s.span.Fits (c.chunksOfKind s.kind) ∧
      s.span.of (c.chunksOfKind s.kind) = share (mandatoryOf s.kind) files number) ∧
    ∀ kind, (∀ s ∈ shares, s.kind ≠ kind) → share (mandatoryOf kind) files number = []

namespace Filed

theorem empty : Filed (empty : Corpus K) [] := by
  constructor <;> simp [Corpus.empty, gathered, chunksOfKind]

theorem size {c : Corpus K} {files : List (CorpusFile K)} (h : Filed c files) :
    c.files.size = files.length := by
  rw [← h.all, Array.length_toList]

theorem add {c : Corpus K} {files : List (CorpusFile K)} (h : Filed c files) (f : CorpusFile K) :
    Filed (c.add f.label f.walk).2 (files ++ [f]) := by
  have hoptional := add_optional c f.label f.walk
  have hkind := add_chunksOfKind c f.label f.walk
  rw [h.size] at hoptional
  simp only [h.size] at hkind
  constructor
  · rw [add_files, Array.toList_push, h.all]
  · rw [hoptional, h.optional, gathered_append]
  · rw [add_optionalShares, Array.size_push, h.optionalShares, List.length_append]
    rfl
  · intro number span hspan
    rw [add_optionalShares, Array.getElem?_push, h.optionalShares, h.size] at hspan
    rw [hoptional]
    split at hspan
    · next hn =>
      cases hspan
      rw [hn, share_append_length]
      exact ⟨Span.after_fits _ _, Span.after_of _ _⟩
    · have hlt : number < files.length :=
        h.optionalShares ▸ (Array.getElem?_eq_some_iff.1 hspan).1
      obtain ⟨hfits, hof⟩ := h.optionalShare number span hspan
      rw [share_append_lt hlt, Span.of_append hfits]
      exact ⟨hfits.append _, hof⟩
  · intro kind
    rw [hkind, h.mandatory, gathered_append]
  · rw [add_mandatoryShares, Array.size_push, h.mandatoryShares, List.length_append]
    rfl
  · intro number shares hshares
    rw [add_mandatoryShares, Array.getElem?_push, h.mandatoryShares, h.size] at hshares
    split at hshares
    · next hn =>
      cases hshares
      rw [hn]
      constructor
      · intro s hs
        obtain ⟨kind, -, rfl⟩ := List.mem_map.1 hs
        rw [hkind, share_append_length]
        exact ⟨Span.after_fits _ _, Span.after_of _ _⟩
      · intro kind habsent
        rw [share_append_length]
        exact stamped_of_not_mem (fun hk => habsent _ (List.mem_map_of_mem hk) rfl) _
    · have hlt : number < files.length :=
        h.mandatoryShares ▸ (Array.getElem?_eq_some_iff.1 hshares).1
      obtain ⟨hshown, habsent⟩ := h.mandatoryShare number shares hshares
      constructor
      · intro s hs
        obtain ⟨hfits, hof⟩ := hshown s hs
        rw [hkind, share_append_lt hlt, Span.of_append hfits]
        exact ⟨hfits.append _, hof⟩
      · intro kind hnone
        rw [share_append_lt hlt]
        exact habsent kind hnone

end Filed

theorem ofFiles_filed (files : List (CorpusFile K)) : Filed (ofFiles files) files := by
  induction files using List.reverseRecOn with
  | nil => exact .empty
  | append_singleton files f ih => exact ofFiles_append files f ▸ ih.add f

section Answers

variable {c : Corpus K} {files : List (CorpusFile K)}

theorem Filed.optionalIn (h : Filed c files) (number : Nat) :
    c.optionalIn number = share (·.optional) files number := by
  rw [Corpus.optionalIn]
  cases hs : c.optionalShares[number]? with
  | some span => exact (h.optionalShare number span hs).2
  | none =>
    rw [Array.getElem?_eq_none_iff, h.optionalShares] at hs
    exact (share_of_le hs).symm

theorem Filed.chunksOfKindIn (h : Filed c files) (number : Nat) (kind : K) :
    c.chunksOfKindIn number kind = share (mandatoryOf kind) files number := by
  rw [Corpus.chunksOfKindIn]
  cases hs : c.mandatoryShares[number]? with
  | none =>
    have hle := hs
    rw [Array.getElem?_eq_none_iff, h.mandatoryShares] at hle
    rw [Array.getD_eq_getD_getElem?, hs]
    exact (share_of_le hle).symm
  | some shares =>
    obtain ⟨hshown, habsent⟩ := h.mandatoryShare number shares hs
    rw [Array.getD_eq_getD_getElem?, hs, Option.getD_some]
    cases hf : shares.find? (·.kind == kind) with
    | some s =>
      have hkind : s.kind = kind := by simpa using List.find?_some hf
      exact hkind ▸ (hshown s (List.mem_of_find?_eq_some hf)).2
    | none =>
      rw [List.find?_eq_none] at hf
      exact (habsent kind fun s hs e => hf s hs (beq_iff_eq.2 e)).symm

/-- A chunk that came from a file of the corpus finds its decisions there. -/
theorem Filed.decisionsOf (h : Filed c files) {f : CorpusFile K} {chunk : Chunk K}
    (hf : files[chunk.fileIndex]? = some f) :
    c.decisionsOf chunk = .ok (chunk.decisions.of f.walk.decisions) := by
  have hget : c.files[chunk.fileIndex]? = some f := by
    rw [← Array.getElem?_toList, h.all, hf]
  rw [Corpus.decisionsOf, file, hget]
  rfl

end Answers

structure Answers (c : Corpus K) (files : List (CorpusFile K)) : Prop where
  number : ∀ label w, (c.add label w).1 = files.length
  optionalChunks : c.optionalChunks = gathered (·.optional) files
  chunksOfKind : ∀ kind, c.chunksOfKind kind = gathered (mandatoryOf kind) files
  optionalIn : ∀ number, c.optionalIn number = share (·.optional) files number ∧
    c.optionalIn number = c.optionalChunks.filter (·.fileIndex == number)
  chunksOfKindIn : ∀ number kind,
    c.chunksOfKindIn number kind = share (mandatoryOf kind) files number ∧
    c.chunksOfKindIn number kind = (c.chunksOfKind kind).filter (·.fileIndex == number)
  spans : (∀ span ∈ c.optionalShares, span.Fits c.optionalChunks) ∧
    ∀ shares ∈ c.mandatoryShares, ∀ s ∈ shares, s.span.Fits (c.chunksOfKind s.kind)
  decisionsOf : ∀ chunk, (chunk ∈ c.optionalChunks ∨ ∃ kind, chunk ∈ c.chunksOfKind kind) →
    ∃ f, files[chunk.fileIndex]? = some f ∧ chunk.decisions.Fits f.walk.decisions ∧
      c.decisionsOf chunk = .ok (chunk.decisions.of f.walk.decisions)

/-- However many files are added to a corpus and whatever kinds of chunks they have, its indexes
hold every chunk once, under the number of its file, and lead to that file's decisions. -/
theorem ofFiles_answers {files : List (CorpusFile K)} (h : ∀ f ∈ files, f.walk.Made) :
    (ofFiles files).Answers files := by
  have hfiled := ofFiles_filed files
  have hdecisions : ∀ (p : Chunk K → Bool) (chunk : Chunk K), chunk ∈ gathered p files →
      ∃ f, files[chunk.fileIndex]? = some f ∧ chunk.decisions.Fits f.walk.decisions ∧
        (ofFiles files).decisionsOf chunk = .ok (chunk.decisions.of f.walk.decisions) := by
    intro p chunk hchunk
    obtain ⟨f, hf, hmem⟩ := mem_gathered.1 hchunk
    obtain ⟨d, hd, -, heq⟩ := Walk.mem_stamped.1 hmem
    have hsame : chunk.decisions = d.decisions := (congrArg Chunk.decisions heq).symm
    exact ⟨f, hf, hsame ▸ (h f (List.mem_of_getElem? hf)).decisions_fit hd, hfiled.decisionsOf hf⟩
  refine ⟨fun label w => hfiled.size, hfiled.optional, hfiled.mandatory, ?_, ?_, ⟨?_, ?_⟩, ?_⟩
  · intro number
    rw [optionalChunks, hfiled.optional, gathered_filter]
    exact ⟨hfiled.optionalIn number, hfiled.optionalIn number⟩
  · intro number kind
    rw [hfiled.mandatory, gathered_filter]
    exact ⟨hfiled.chunksOfKindIn number kind, hfiled.chunksOfKindIn number kind⟩
  · intro span hspan
    obtain ⟨number, hn⟩ := Array.getElem?_of_mem hspan
    exact (hfiled.optionalShare number span hn).1
  · intro shares hshares s hs
    obtain ⟨number, hn⟩ := Array.getElem?_of_mem hshares
    exact ((hfiled.mandatoryShare number shares hn).1 s hs).1
  · rintro chunk (hc | ⟨kind, hc⟩)
    · exact hdecisions (·.optional) chunk (hfiled.optional ▸ hc)
    · exact hdecisions (mandatoryOf kind) chunk (hfiled.mandatory kind ▸ hc)

end Corpus

def tailed : Grammar Bool Unit :=
  .scope "head" false (.ask (.bytes 1) .done) fun _ =>
    .ask (.lookBytes 0 1 [[7], [8]]) fun mark =>
      if mark = [7] then .scope "tail" true (.ask (.bytes 1) fun _ => .done ()) .done
      else .done ()

/-- The middle one of three files has no optional chunk. -/
theorem Corpus.ofFiles_answers_tailed :
    ∃ w₀ w₁ w₂, tailed.parse {} [4, 7] = .ok w₀ ∧ tailed.parse {} [4, 8] = .ok w₁ ∧
      tailed.generate {} [5, 1, 0, 7] = .ok w₂ ∧
      w₀.chunks.any (·.optional) = true ∧ w₁.chunks.any (·.optional) = false ∧
      w₂.chunks.any (·.optional) = true ∧
      (ofFiles [⟨"a", w₀⟩, ⟨"b", w₁⟩, ⟨"c", w₂⟩]).Answers [⟨"a", w₀⟩, ⟨"b", w₁⟩, ⟨"c", w₂⟩] := by
  have hrun₀ : (tailed.parse {} [4, 7]).toOption.any
      (fun w => w.chunks.any (·.optional)) = true := by decide +kernel
  have hrun₁ : (tailed.parse {} [4, 8]).toOption.any
      (fun w => !w.chunks.any (·.optional)) = true := by decide +kernel
  have hrun₂ : (tailed.generate {} [5, 1, 0, 7]).toOption.any
      (fun w => w.chunks.any (·.optional)) = true := by decide +kernel
  obtain ⟨w₀, h₀, hw₀⟩ := ok_of_any hrun₀
  obtain ⟨w₁, h₁, hw₁⟩ := ok_of_any hrun₁
  obtain ⟨w₂, h₂, hw₂⟩ := ok_of_any hrun₂
  refine ⟨w₀, w₁, w₂, h₀, h₁, h₂, hw₀, by simpa using hw₁, hw₂, ofFiles_answers ?_⟩
  simp only [List.forall_mem_cons]
  exact ⟨⟨_, _, _, .inl h₀⟩, ⟨_, _, _, .inl h₁⟩, ⟨_, _, _, .inr h₂⟩, by simp⟩

end DecisionWalk
