import DecisionWalk.Proofs.Portable
import DecisionWalk.Proofs.RiffLanguage
import DecisionWalk.Proofs.Strides

/-!
# The chunks of a RIFF file

A chunk inside the container starts with a tag and a size and tells all else
about itself: how much it holds, the CRC of its samples, and whether a byte of
padding is behind it. So it reads alike wherever it stands, also where the look
at its tag has fixed its first four bytes already, and it covers all that it reads.
-/

set_option autoImplicit false

namespace DecisionWalk

open Walker

namespace Portable

variable {K α : Type} {e : Endian} {b : Bool} {look depth least : Nat} {read : Bytes}

theorem alike {x y : Nat → Walker K α} (hy : Portable e b look depth least read y)
    (hsame : ∀ front rest s, Scanning e b (front.length + look) (front ++ read) rest s →
      ∀ a t, x front.length s = .ok a t ↔ y front.length s = .ok a t) :
    Portable e b look depth least read x := by
  intro front rest s a t hs hx
  obtain ⟨u, v, d, hrest, hleast, ht, hnoted, hrecites⟩ :=
    hy front rest s a t hs ((hsame front rest s hs a t).1 hx)
  refine ⟨u, v, d, hrest, hleast, ht, hnoted, ?_⟩
  intro front' v' s' hs' hroom hdepth
  obtain ⟨t', h', hthen⟩ := hrecites front' v' s' hs' hroom hdepth
  exact ⟨t', (hsame front' _ s' hs' a t').2 h', hthen⟩

variable [DecidableEq K]

/-- A byte that is skipped, where nothing beyond the cursor has been looked at. -/
theorem skipOne (hlook : look ≤ read.length) :
    Portable e b look depth 1 read fun _ => (Grammar.request (.skip 1) : Grammar K Unit).run := by
  have hbyte : Portable e b look depth 1 read
      fun _ => (readUIntFull 1 >>= fun _ => Pure.pure () : Walker K Unit) := by
    rw [readUIntFull_eq 1 (by decide) (by decide)]
    exact (field (Field.uintFull_lawful 1 (by decide)) fun v _ =>
      Nat.le_of_eq (e.length_encode 1 v).symm).bind fun _ _ _ => Portable.pure ()
  rw [Grammar.run_request, Request.answer]
  apply hbyte.alike
  intro front rest s hs a t
  show seek (s.image.cursor + 1) s = .ok a t ↔ _
  have hsize := hs.forgets (by rw [List.length_append]; omega)
  have hcursor := hs.cursor
  have hlimit := hs.limit
  by_cases hroom : s.image.limit < s.image.cursor + 1
  · refine iff_of_false (Follows.seek_past hroom t a) ?_
    intro h
    obtain ⟨u, v, d, rfl, hlong, -⟩ := hbyte front rest s a t hs h
    have hsplit : (u ++ v).length = u.length + v.length := List.length_append
    omega
  · have hfill : fillGap (K := K) 1 = (readUIntFull 1 >>= fun _ => Pure.pure ()) := rfl
    rw [Follows.seek_edge (by omega) (by omega), hfill, bind_assoc]
    have hstays : ∀ v (u : State K), readUIntFull 1 s = .ok v u →
        moveTo (s.image.cursor + 1) u = .ok () u := by
      intro v u hread
      obtain ⟨bs, hlength, hspells⟩ := readUIntFull_spells hread
      have hthere := hspells.cursor
      rw [hlength] at hthere
      rw [← hthere]
      rfl
    constructor <;> intro h <;> obtain ⟨v, u, hread, hend⟩ := bind_ok.1 h
    · have hmove : moveTo (s.image.cursor + 1) u = .ok a t := hend
      rw [hstays v u hread] at hmove
      exact (bind_run hread).trans hmove
    · cases hend
      exact (bind_run hread).trans (hstays v t hread)

/-- A checksum covers what was read last, from some place in `read` on. -/
theorem checksum16 {front middle : Bytes} {f : Nat → Nat → Grammar K α}
    (hread : read = front ++ middle)
    (hf : Portable e b look depth least read fun n => (f n (crc16 middle).toNat).run) :
    Portable e b look depth least read fun n => ((Grammar.request
      (.checksum16 (n + front.length) (n + read.length)) : Grammar K Nat) >>= f n).run := by
  simp only [Grammar.run_bind]
  apply knowing (fun _ => (crc16 middle).toNat) ?_ hf
  intro before rest s hs
  have hpast : before ++ read = (before ++ front) ++ middle := by
    rw [hread, List.append_assoc]
  have hsum := Scans.checksum16 hpast rest s hs
  rwa [List.length_append, List.length_append] at hsum

end Portable

namespace Riff

open Grammar

section Portable

variable {b : Bool} {look depth m : Nat} {read : Bytes}

theorem tag_portable (expected : Bytes) (htag : expected.length = 4) :
    Portable .little b look depth 4 read fun _ => (tag expected).run := by
  apply Portable.discard
  apply Portable.underEvil
  apply Portable.bytesKnown 4 [expected] (by decide) (List.cons_ne_nil _ _) (by simp)
  intro u hu
  rw [List.mem_singleton.1 hu]
  exact htag

theorem skipUInt_portable (w : Nat) (h1 : 1 ≤ w) (h8 : w ≤ 8) :
    Portable .little b look depth w read fun _ => (skipUInt w).run :=
  (Portable.uint w h1 h8).discard

theorem oneOf_portable (w : Nat) (known : List Nat) (h1 : 1 ≤ w) (h8 : w ≤ 8) (hne : known ≠ [])
    (hlen : known.length ≤ 256) (hknown : ∀ v ∈ known, v < 256 ^ w) :
    Portable .little b look depth w read fun _ => (oneOf w known).run :=
  (Portable.uintKnown w known h1 h8 hne hlen hknown).discard

theorem form_portable : Portable .little b look depth 4 read
    fun _ => (discard (request (.bytesKnown 4 formTypes)) : Rule).run :=
  (Portable.bytesKnown 4 formTypes (by decide) (by decide) (by decide) (by decide)).discard

theorem then_portable {g f : Rule} {n : Nat}
    (hg : Portable .little b look depth m read fun _ => g.run)
    (hf : ∀ u : Bytes, m ≤ u.length → Portable .little b look depth n (read ++ u) fun _ => f.run) :
    Portable .little b look depth m read fun _ => (g >>= fun _ => f).run :=
  (hg.seq fun _ u hu => hf u hu).weaken (Nat.le_add_right _ _)

theorem formatRule_portable : Portable .little b look depth 4 read fun _ => formatRule.run := by
  apply then_portable (tag_portable fmtTag rfl)
  intro u _
  apply then_portable (oneOf_portable 4 [16] (by decide) (by decide) (by decide) (by decide)
    (by decide))
  intro u _
  apply then_portable (oneOf_portable 2 [1, 3] (by decide) (by decide) (by decide) (by decide)
    (by decide))
  intro u _
  apply then_portable (skipUInt_portable 2 (by decide) (by decide))
  intro u _
  apply then_portable (oneOf_portable 4 sampleRates (by decide) (by decide) (by decide) (by decide)
    (by decide))
  intro u _
  apply then_portable (skipUInt_portable 4 (by decide) (by decide))
  intro u _
  apply then_portable (skipUInt_portable 2 (by decide) (by decide))
  intro u _
  exact oneOf_portable 2 [8, 16, 24, 32] (by decide) (by decide) (by decide) (by decide) (by decide)

theorem pad_portable (size : Nat) (hlook : look ≤ read.length) :
    Portable .little b look depth 0 read fun _ => (pad size).run := by
  by_cases hodd : size % 2 = 1
  · rw [pad, if_pos hodd]
    exact (Portable.skipOne hlook).weaken (Nat.zero_le _)
  · rw [pad, if_neg hodd]
    exact Portable.pure ()

theorem payloadSize_bind (what : String) (body : Nat → Rule) :
    (payloadSize what >>= body) = (request (.uint 4) >>= fun size =>
      request .remaining >>= fun room => if room < size then
        .stop 1 s!"{what} size {size} runs past the end of the file" else body size : Rule) := by
  show (request (.uint 4) >>= fun size => request .remaining >>= fun room =>
    (if room < size then .stop 1 s!"{what} size {size} runs past the end of the file"
      else pure size : Grammar Kind Nat) >>= body : Rule) = _
  congr 1
  funext size
  congr 1
  funext room
  split <;> rfl

theorem payload_portable {what : String} {body : Nat → Rule}
    (hbody : ∀ size (u : Bytes), 4 ≤ u.length →
      Portable .little b look depth size (read ++ u) fun _ => (body size).run) :
    Portable .little b look depth 4 read fun _ => (payloadSize what >>= body).run := by
  rw [payloadSize_bind]
  have hleast : 4 ≤ 4 + 0 := Nat.le_refl 4
  refine Portable.weaken ?_ hleast
  apply (Portable.uint 4 (by decide) (by decide)).seq
  intro size u hu
  exact (Portable.guarded size 1 _ (Nat.le_refl _) (hbody size u hu)).weaken (Nat.zero_le _)

/-- A tag, a size, and what is read for the size. -/
theorem tagged_portable {expected : Bytes} {what : String} {body : Nat → Rule}
    (htag : expected.length = 4)
    (hbody : ∀ size (u : Bytes), read.length + 8 ≤ u.length →
      Portable .little b look depth size u fun _ => (body size).run) :
    Portable .little b look depth 4 read
      fun _ => (tag expected >>= fun _ => payloadSize what >>= body).run := by
  apply then_portable (tag_portable expected htag)
  intro u hu
  apply payload_portable
  intro size v hv
  apply hbody
  rw [List.length_append, List.length_append]
  omega

theorem listRule_portable (hlook : look ≤ read.length + 8) :
    Portable .little b look depth 4 read fun _ => listRule.run := by
  apply tagged_portable rfl
  intro size u hu
  by_cases hsize : size < 4
  · rw [if_pos hsize]
    intro front rest s a t _ h
    exact absurd h (throw_not_ok _ _ _ _)
  · rw [if_neg hsize]
    have hwhole : size ≤ 4 + (size - 4 + 0) := by omega
    refine Portable.weaken ?_ hwhole
    apply (Portable.bytesKnown 4 [infoTag] (by decide) (by decide) (by decide)
      (by decide)).discard.seq
    intro _ info _
    apply (Portable.string (size - 4)).discard.seq
    intro _ words _
    apply pad_portable
    rw [List.length_append, List.length_append]
    omega

/-- The samples, the CRC of what was just read, and the padding. -/
theorem dataRule_portable (hlook : look ≤ read.length + 8) :
    Portable .little b look depth 4 read fun _ => dataRule.run := by
  apply tagged_portable rfl
  intro size u hu
  show Portable _ _ _ _ _ _ fun _ => (request .tell >>= fun start =>
    discard (request (.bytes size)) >>= fun _ => request .tell >>= fun stop =>
    request (.checksum16 start stop) >>= fun crc => oneOf 2 [crc] >>= fun _ => pad size).run
  apply Portable.tell
  have hwhole : size ≤ size + 2 := Nat.le_add_right _ _
  refine Portable.weaken ?_ hwhole
  apply (Portable.bytes size).discard.seq
  intro _ samples _
  apply Portable.tell
  apply Portable.checksum16 rfl
  apply then_portable (oneOf_portable 2 [(crc16 samples).toNat] (by decide) (by decide)
    (List.cons_ne_nil _ _) (by simp) (List.forall_mem_singleton.2 (crc16 samples).toNat_lt))
  intro sum _
  apply pad_portable
  simp only [List.length_append]
  omega

theorem junkRule_portable (hlook : look ≤ read.length + 8) :
    Portable .little b look depth 4 read fun _ => junkRule.run := by
  apply tagged_portable rfl
  intro size u hu
  apply then_portable (Portable.bytes size).discard
  intro v _
  apply pad_portable
  rw [List.length_append]
  omega

end Portable

section Strides

variable {s t : State Kind} {l m n : Nat}

theorem request_strides {α : Type} {r : Request α}
    (h : Striding s l m n (r.answer : Walker Kind α)) :
    Striding s l m n (discard (request r) : Rule).run := by
  apply Striding.discard
  rwa [run_request]

theorem read_strides {α : Type} {r : Request α}
    (h : ∀ u a v, (r.answer : Walker Kind α) u = .ok a v → ∃ k bs, Spells k bs u v) :
    Striding s l 0 0 (discard (request r) : Rule).run := by
  apply request_strides
  intro k u a v hu hx
  obtain ⟨j, bs, hspells⟩ := h u a v hx
  exact (hu.spelled hspells).weaken (Nat.le_add_right _ _) (Nat.le_add_right _ _)

theorem skipUInt_strides (w : Nat) : Striding s l 0 0 (skipUInt w).run := by
  apply read_strides
  intro u a v h
  obtain ⟨bs, -, hspells⟩ := readUInt_spells h
  exact ⟨0, bs, hspells⟩

theorem oneOf_strides (w : Nat) (known : List Nat) : Striding s l 0 0 (oneOf w known).run := by
  apply read_strides
  intro u a v h
  obtain ⟨bs, -, hspells⟩ := readUIntKnown_spells h
  exact ⟨1, bs, hspells⟩

theorem tag_strides (expected : Bytes) : Striding s l 1 4 (tag expected).run := by
  apply Striding.discard
  rw [run_underEvil, run_request]
  exact Striding.withEvil (.spells fun _ bs _ h => ⟨bs, readBytesKnown_spells h⟩) false

theorem known_strides (known : List Bytes) :
    Striding s l 1 4 (discard (request (.bytesKnown 4 known)) : Rule).run := by
  have hread : Striding s l 1 4 (readBytesKnown 4 known : Walker Kind Bytes) :=
    .spells fun _ bs _ h => ⟨bs, readBytesKnown_spells h⟩
  exact request_strides hread

theorem then_strides {g f : Rule} (hg : Striding s l m n g.run)
    (hf : Striding s (l + n) 0 0 f.run) : Striding s l m n (g >>= fun _ => f).run := by
  rw [run_bind]
  exact hg.bind fun _ => hf

/-- Where all that was looked at has been read, a byte is skipped as it would be read. -/
theorem pad_strides (size : Nat) (hs : s.image.size ≤ s.image.cursor + l) :
    Striding s l 0 0 (pad size).run := by
  by_cases hodd : size % 2 = 1
  · rw [pad, if_pos hodd, run_request]
    intro k u a v hu h
    have hcursor := hu.cursor
    have hsize := hu.size
    rcases seek_cases (show seek (u.image.cursor + 1) u = .ok a v from h) with
      ⟨hback, -⟩ | ⟨-, w, hfill, rfl⟩
    · omega
    · have hedge : u.image.cursor + 1 - u.image.size = 1 := by omega
      have hstays : u.movedTo u.image.size = u := by
        rw [show u.image.size = u.image.cursor by omega]
        rfl
      rw [hedge, hstays] at hfill
      obtain ⟨_, w', hread, hend⟩ := bind_ok.1 hfill
      cases hend
      obtain ⟨bs, hlength, hspells⟩ := readUIntFull_spells hread
      have hthere : w.movedTo (u.image.cursor + 1) = w := by
        have hmoved := hspells.cursor
        rw [hlength] at hmoved
        rw [← hmoved]
        rfl
      rw [hthere]
      exact (hu.spelled hspells).weaken (Nat.le_add_right _ _) (Nat.le_add_right _ _)
  · rw [pad, if_neg hodd]
    exact .pure ()

theorem formatRule_strides : Striding s l 1 4 formatRule.run := by
  apply then_strides (tag_strides fmtTag)
  apply then_strides (oneOf_strides 4 [16])
  apply then_strides (oneOf_strides 2 [1, 3])
  apply then_strides (skipUInt_strides 2)
  apply then_strides (oneOf_strides 4 sampleRates)
  apply then_strides (skipUInt_strides 4)
  apply then_strides (skipUInt_strides 2)
  exact oneOf_strides 2 [8, 16, 24, 32]

theorem tagged_strides {expected : Bytes} {what : String} {body : Nat → Rule}
    (hbody : ∀ size, Striding s (l + 4) 0 0 (body size).run) :
    Striding s l 1 4 (tag expected >>= fun _ => payloadSize what >>= body).run := by
  apply then_strides (tag_strides expected)
  rw [payloadSize_bind, run_bind, run_request]
  have hsize : Striding s (l + 4) 0 0 (readUInt 4 : Walker Kind Nat) :=
    (Striding.spells fun _ _ _ => readUInt_spells).weaken (Nat.le_refl _) (Nat.zero_le _)
  have hroom : ∀ (u : State Kind) (room : Nat) v, Walker.remaining u = .ok room v → v = u := by
    intro u room v h
    cases h
    rfl
  have hthen : ∀ size, Striding s (l + 4) 0 0 (request .remaining >>= fun room =>
      if room < size then .stop 1 s!"{what} size {size} runs past the end of the file"
      else body size : Rule).run := by
    intro size
    rw [run_bind, run_request]
    apply Striding.behind hroom
    intro room
    split
    · exact .failing fun _ _ _ => throw_not_ok _ _ _ _
    · exact hbody size
  exact hsize.bind hthen

theorem bytes_strides (w : Nat) : Striding s l 0 0 (discard (request (.bytes w)) : Rule).run :=
  read_strides fun _ _ _ h => ⟨0, _, readBytes_spells h⟩

theorem junkRule_strides (hs : s.image.size ≤ s.image.cursor + 4) :
    Striding s 0 1 4 junkRule.run := by
  apply tagged_strides
  intro size
  apply then_strides (bytes_strides size)
  exact pad_strides size hs

theorem listRule_strides (hs : s.image.size ≤ s.image.cursor + 4) :
    Striding s 0 1 4 listRule.run := by
  apply tagged_strides
  intro size
  by_cases hsize : size < 4
  · rw [if_pos hsize]
    exact .failing fun _ _ _ => throw_not_ok _ _ _ _
  · rw [if_neg hsize]
    have hinfo : Striding s 4 0 0 (discard (request (.bytesKnown 4 [infoTag])) : Rule).run :=
      (known_strides [infoTag]).weaken (Nat.zero_le _) (Nat.zero_le _)
    have hwords : Striding s 4 0 0 (discard (request (.string (size - 4))) : Rule).run :=
      read_strides fun _ bs _ (h : readString (size - 4) _ = _) => ⟨0, bs, readString_spells h⟩
    apply then_strides hinfo
    apply then_strides hwords
    exact pad_strides size hs

theorem dataRule_strides (hs : s.image.size ≤ s.image.cursor + 4) :
    Striding s 0 1 4 dataRule.run := by
  have htell : ∀ (u : State Kind) p v, tell u = .ok p v → v = u := by
    intro u p v h
    cases h
    rfl
  apply tagged_strides
  intro size
  rw [run_bind, run_request]
  apply Striding.behind htell
  intro start
  apply then_strides (bytes_strides size)
  rw [run_bind, run_request]
  apply Striding.behind htell
  intro stop
  rw [run_bind, run_request]
  apply Striding.behind
  · intro u crc v h
    obtain ⟨_, w, hslice, h⟩ := bind_ok.1 h
    cases h
    exact (fixedSlice_ok hslice).2.2.2.1
  · intro crc
    apply then_strides (oneOf_strides 2 [crc])
    exact pad_strides size hs

end Strides

def Kind.rule : Kind → Rule
  | .container => containerRule
  | .format => formatRule
  | .list => listRule
  | .data => dataRule
  | .junk => junkRule

def Kind.production (kind : Kind) : Rule := inScope kind.name kind kind.rule

section Kinds

variable {kind : Kind} {b : Bool} {s t : State Kind} {a : Unit}

theorem Kind.rule_portable (hkind : kind ≠ .container) :
    Portable .little b 4 0 4 [] fun _ => kind.rule.run := by
  cases kind with
  | container => exact absurd rfl hkind
  | format => exact formatRule_portable
  | list => exact listRule_portable (by decide)
  | data => exact dataRule_portable (by decide)
  | junk => exact junkRule_portable (by decide)

theorem Kind.produced (hkind : kind ≠ .container) (hs : s.image.cursor ≤ s.image.size)
    (hlook : s.image.size ≤ s.image.cursor + 4) (h : kind.production.run s = .ok a t) :
    Produced kind.name kind 1 4 s t := by
  apply Strides.produced_here _ h
  intro u _ v hu
  cases kind with
  | container => exact absurd rfl hkind
  | format => exact formatRule_strides.strides (hu ▸ hs)
  | list => exact (listRule_strides (hu ▸ hlook)).strides (hu ▸ hs)
  | data => exact (dataRule_strides (hu ▸ hlook)).strides (hu ▸ hs)
  | junk => exact (junkRule_strides (hu ▸ hlook)).strides (hu ▸ hs)

structure Kind.Reads (b : Bool) (kind : Kind) (u d : Bytes) : Prop where
  least : 4 ≤ u.length
  recites : ∀ past, Recites .little b (past.length + 4) 1 past kind.production.run u d ()

/-- What the production of a chunk reads somewhere it reads anywhere. -/
theorem Kind.reads (hkind : kind ≠ .container) {past rest : Bytes}
    (hs : Scanning .little b (past.length + 4) past rest s)
    (h : kind.production.run s = .ok a t) :
    ∃ u v d, rest = u ++ v ∧ Scanning .little b 0 (past ++ u) v t ∧ Noted d s t ∧
      kind.Reads b u d := by
  have hportable : Portable .little b 4 1 4 [] fun _ => kind.production.run :=
    (Kind.rule_portable hkind).inScope kind.name kind
  obtain ⟨u, v, d, rfl, hleast, ht, hnoted, hrecites⟩ := hportable past rest s a t
    (by rwa [List.append_nil]) h
  simp only [List.append_nil] at ht hrecites
  refine ⟨u, v, d, rfl, ?_, hnoted, hleast, hrecites⟩
  apply ht.weaken
  rw [List.length_append]
  omega

namespace Kind.Reads

variable {past u v d : Bytes}

/-- The bytes that were looked at have been read. -/
theorem run (h : kind.Reads b u d) (hs : Scanning .little b (past.length + 4) past (u ++ v) s)
    (hroom : s.stream.position + d.length ≤ s.stream.capacity)
    (hdepth : s.tracker.depth + 1 ≤ s.tracker.maxDepth) :
    ∃ t, kind.production.run s = .ok () t ∧ Scanning .little b 0 (past ++ u) v t ∧
      Noted d s t := by
  have hleast := h.least
  obtain ⟨t, hrun, ht, hnoted⟩ := h.recites past v s hs hroom hdepth
  refine ⟨t, hrun, ht.weaken ?_, hnoted⟩
  rw [List.length_append]
  omega

theorem recited (h : kind.Reads b u d) : Recited .little b 1 kind.production.run u d () := by
  intro past v s hs hroom hdepth
  exact h.run (hs.weaken (by omega)) hroom hdepth

end Kind.Reads

end Kinds

end Riff

end DecisionWalk
