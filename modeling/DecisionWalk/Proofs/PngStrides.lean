import DecisionWalk.Proofs.PngRoundTrip
import DecisionWalk.Proofs.Strides

/-!
# What the chunks of a PNG cover

The rule of every chunk reads on without a gap: a length, a type, a body and a
CRC. So each chunk covers eight bytes at least and takes a decision at least, and
what the look at its type has touched lies inside it.
-/

set_option autoImplicit false

namespace DecisionWalk.Png

open Walker Grammar

section Rules

variable {b s t : State Kind} {l : Nat}

theorem request_strides {α : Type} {r : Request α} {m n : Nat}
    (h : Striding b l m n (r.answer : Walker Kind α)) :
    Striding b l m n (discard (request r) : Rule).run := by
  apply Striding.discard
  rwa [run_request]

theorem skipUInt_strides (width : Nat) : Striding b l 0 width (skipUInt width).run :=
  request_strides (.spells fun _ _ _ => readUInt_spells)

theorem oneOf_strides (width : Nat) (known : List Nat) :
    Striding b l 1 width (oneOf width known).run :=
  request_strides (.spells fun _ _ _ => readUIntKnown_spells)

theorem literal_strides (n : Nat) (bytes : Bytes) : Striding b l 1 n
    (discard (underEvil false (request (.bytesKnown n [bytes]))) : Rule).run := by
  apply Striding.discard
  rw [run_underEvil, run_request]
  exact Striding.withEvil (.spells fun _ bs _ h => ⟨bs, readBytesKnown_spells h⟩) false

theorem tell_state (s : State Kind) (a : Nat) (t : State Kind) (h : tell s = .ok a t) : t = s := by
  cases h
  rfl

theorem remaining_state (s : State Kind) (a : Nat) (t : State Kind) (h : remaining s = .ok a t) :
    t = s := by
  cases h
  rfl

theorem typed_strides (type : Bytes) : Striding b l 1 4 (typed type).run := by
  rw [typed, run_bind, run_request]
  apply Striding.behind tell_state
  intro start
  rw [run_bind]
  exact (literal_strides 4 type).bind fun _ => .pure _

theorem summed_strides (start : Nat) : Striding b l 0 0 (summed start).run := by
  rw [summed, run_bind, run_request]
  apply Striding.behind tell_state
  intro stop
  rw [run_request]
  apply Striding.looks
  intro s crc t h
  obtain ⟨_, u, hslice, h⟩ := bind_ok.1 h
  cases h
  exact (fixedSlice_ok hslice).2.2.2.1

/-- The steps of a body, of which only the order matters. -/
theorem then_strides {g f : Rule} {m n : Nat} (hg : Striding b l m n g.run)
    (hf : Striding b l 0 0 f.run) : Striding b l 0 0 (g >>= fun _ => f).run := by
  rw [run_bind]
  exact (hg.weaken (Nat.zero_le _) (Nat.zero_le _)).bind fun _ => hf

theorem framed_strides {type : Bytes} {body : Rule} (hbody : Striding b (l + 4) 0 0 body.run) :
    Striding b l 2 8 (framed type body).run := by
  rw [run_framed]
  exact (typed_strides type).bind fun start => hbody.bind fun _ =>
    (summed_strides start).bind fun crc => oneOf_strides 4 [crc]

theorem sized_strides {length : Nat} {type : Bytes} {body : Rule}
    (hbody : Striding b (l + 8) 0 0 body.run) :
    Striding b l 3 12 (sized length type body).run := by
  rw [sized, run_bind]
  exact (oneOf_strides 4 [length]).bind fun _ => framed_strides hbody

theorem headerRule_strides : Striding b l 1 8 headerRule.run := by
  have hlast : Striding b (l + 8) 0 0 (oneOf 1 [0, 1]).run :=
    (oneOf_strides 1 _).weaken (Nat.zero_le _) (Nat.zero_le _)
  have hbody := then_strides (skipUInt_strides 4) (then_strides (skipUInt_strides 4)
    (then_strides (oneOf_strides 1 [1, 2, 4, 8, 16]) (then_strides (oneOf_strides 1 [0, 2, 3, 4, 6])
      (then_strides (oneOf_strides 1 [0]) (then_strides (oneOf_strides 1 [0]) hlast)))))
  exact (sized_strides hbody).weaken (by decide) (by decide)

theorem physicalDimsRule_strides : Striding b l 1 8 physicalDimsRule.run := by
  have hlast : Striding b (l + 8) 0 0 (oneOf 1 [0, 1]).run :=
    (oneOf_strides 1 _).weaken (Nat.zero_le _) (Nat.zero_le _)
  have hbody := then_strides (skipUInt_strides 4) (then_strides (skipUInt_strides 4) hlast)
  exact (sized_strides hbody).weaken (by decide) (by decide)

theorem timeRule_strides : Striding b l 1 8 timeRule.run := by
  have hlast : Striding b (l + 8) 0 0 (oneOf 1 (between 0 60)).run :=
    (oneOf_strides 1 _).weaken (Nat.zero_le _) (Nat.zero_le _)
  have hbody := then_strides (skipUInt_strides 2) (then_strides (oneOf_strides 1 (between 1 12))
    (then_strides (oneOf_strides 1 (between 1 31)) (then_strides (oneOf_strides 1 (between 0 23))
      (then_strides (oneOf_strides 1 (between 0 59)) hlast))))
  exact (sized_strides hbody).weaken (by decide) (by decide)

theorem endRule_strides : Striding b l 1 8 endRule.run :=
  (sized_strides (.pure ())).weaken (by decide) (by decide)

theorem dataRule_strides : Striding b l 1 8 dataRule.run := by
  have hlength : Striding b l 0 4 (request (.uint 4) : Grammar Kind Nat).run := by
    rw [run_request]
    exact .spells fun _ _ _ => readUInt_spells
  have hframed : ∀ length, Striding b (l + 4) 2 8
      (framed idat (discard (request (.bytes length)))).run := by
    intro length
    apply framed_strides
    apply request_strides
    exact .reads fun _ _ _ h => ⟨_, readBytes_spells h⟩
  have hrest : Striding b l (0 + 2) (4 + 8) dataRule.run := by
    rw [dataRule, run_bind]
    apply hlength.bind
    intro length
    rw [run_bind, run_request]
    apply Striding.behind remaining_state
    intro room
    by_cases hroom : room < length + 8
    · rw [if_pos hroom]
      exact .failing fun _ _ _ => throw_not_ok _ _ _ _
    · rw [if_neg hroom]
      exact hframed length
  exact hrest.weaken (by decide) (by decide)

theorem worded_strides (held : Option Nat) : Striding b l 0 0 (worded held) := by
  have htyped : Striding b l 0 0 (typed text).run :=
    (typed_strides text).weaken (Nat.zero_le _) (Nat.zero_le _)
  have hkeyword : Striding b l 0 0 (request (.cstring keywordMost) : Grammar Kind Bytes).run := by
    rw [run_request]
    exact .reads fun _ _ _ h => ⟨_, readCString_spells h⟩
  have hcount : ∀ used, Striding b l 0 0 (do
      let room ← Walker.remaining
      decideCount (room - 4) (held.map (· - used)) : Walker Kind Nat) :=
    fun _ => .behind remaining_state fun _ => .costs (.decideCount _ _)
  have hwords : ∀ count, Striding b l 0 0 (request (.string count) : Grammar Kind Bytes).run := by
    intro count
    rw [run_request]
    exact .reads fun _ _ _ h => ⟨_, readString_spells h⟩
  exact htyped.bind fun _ => hkeyword.bind fun keyword => (hcount (keyword.length + 1)).bind
    fun count => (hwords count).bind fun _ => .pure _

/-- The length in front is patched when the text is there. -/
theorem textRule_strides {a : Unit} (hs : s.image.cursor ≤ s.image.size)
    (h : textRule.run s = .ok a t) : Strides 1 8 s t := by
  rw [run_textRule] at h
  obtain ⟨start, s4, hbody, hclosing⟩ := bind_ok.1 h
  obtain ⟨field, s1, hreserve, hbody⟩ := bind_ok.1 hbody
  obtain ⟨words, s2, hworded, hbody⟩ := bind_ok.1 hbody
  obtain ⟨_, s3, hpatch, hbody⟩ := bind_ok.1 hbody
  cases hbody
  obtain ⟨hposition, hwidth, bs, hlen, hspells⟩ := reserve_spells hreserve
  have h1 : Strides 0 4 s s1 := by
    have hstrides := (Strides.refl hs).spelled hspells
    rwa [hlen] at hstrides
  have h3 : Strides 0 4 s s4 :=
    (worded_strides _ 0 s1 words s2 h1 hworded).patched hposition (Nat.le_of_eq hwidth) hpatch
  obtain ⟨crc, s5, hsum, hcrc⟩ := bind_ok.1 hclosing
  exact oneOf_strides 4 [crc] 0 s5 a t (summed_strides _ 0 s4 crc s5 h3 hsum) hcrc

end Rules

def innerKinds : List Kind := [.data, .text, .physicalDims, .time]

/-- The chunk of a type is a production of its own, and the walk goes on unless it is the last. -/
theorem chunkOf_produced {type : Bytes} {r : Unit ⊕ Unit} {s t : State Kind}
    (hs : s.image.cursor ≤ s.image.size) (h : (chunkOf type).run s = .ok r t) :
    (r = .inl () ∧ ∃ name kind, name ≠ "iend" ∧ kind ∈ innerKinds ∧ Produced name kind 1 8 s t) ∨
      (r = .inr () ∧ Produced "iend" .finish 1 8 s t) := by
  have hchunk : ∀ {name : String} {kind : Kind} {rule : Rule} {result : Unit ⊕ Unit},
      (∀ u a v, u.image.cursor ≤ u.image.size → rule.run u = .ok a v → Strides 1 8 u v) →
      (inScope name kind rule >>= fun _ => pure result).run s = .ok r t →
        r = result ∧ Produced name kind 1 8 s t := by
    intro name kind rule result hrule hrun
    rw [run_bind] at hrun
    obtain ⟨_, u, hscope, hend⟩ := bind_ok.1 hrun
    cases hend
    exact ⟨rfl, Strides.produced hs hrule hscope⟩
  rcases chunkOf_cases type with hc | hc | hc | hc | hc <;> rw [hc] at h
  · obtain ⟨hr, hp⟩ := hchunk (fun _ _ _ hu => dataRule_strides.strides hu) h
    exact Or.inl ⟨hr, _, _, by decide, by decide, hp⟩
  · obtain ⟨hr, hp⟩ := hchunk (fun _ _ _ => textRule_strides) h
    exact Or.inl ⟨hr, _, _, by decide, by decide, hp⟩
  · obtain ⟨hr, hp⟩ := hchunk (fun _ _ _ hu => physicalDimsRule_strides.strides hu) h
    exact Or.inl ⟨hr, _, _, by decide, by decide, hp⟩
  · obtain ⟨hr, hp⟩ := hchunk (fun _ _ _ hu => timeRule_strides.strides hu) h
    exact Or.inl ⟨hr, _, _, by decide, by decide, hp⟩
  · exact Or.inr (hchunk (fun _ _ _ hu => endRule_strides.strides hu) h)

end DecisionWalk.Png
