import DecisionWalk.Proofs.RiffPieces

/-!
# A parse cuts a RIFF file into pieces

Each chunk that a parse finds is a piece that reads anywhere. Behind the samples
and behind each junk chunk a coin tells whether the file ends there. So a file is
its header, whose size field counts what follows, and the pieces; its decisions
are those of the header and of the pieces, and the coin that ends it.
-/

set_option autoImplicit false

namespace DecisionWalk

namespace Riff

open Walker Grammar

variable {b : Bool} {seen : Nat} {past rest : Bytes} {s t : State Kind}

section Coins

def coined (s : State Kind) (ends : Bool) : State Kind :=
  (s.recorded (endCode ends)).tracking
    (s.tracker.lookahead ⟨s.stream.position, (s.recorded (endCode ends)).stream.position⟩)

theorem coined_scanning (hs : Scanning .little b seen past rest s) (ends : Bool) :
    Scanning .little b seen past rest (coined s ends) :=
  (hs.recorded _).tracking _

theorem coined_noted (s : State Kind) (ends : Bool) : Noted (endCode ends) s (coined s ends) :=
  ⟨rfl, Tracker.lookahead_depth _ _, Tracker.lookahead_maxDepth _ _⟩

theorem coined_peeked (hs : s.image.size = s.image.cursor) (ends : Bool) :
    Peeked 0 s (coined s ends) := by
  refine ⟨rfl, hs, ?_⟩
  rw [Nat.add_zero, Tracker.touch_empty]
  rfl

theorem knownEnd_run (hs : Scanning .little b seen past rest s) :
    knownEnd s = .ok (some (decide (rest = []))) s := by
  have hends : s.image.limit ≤ s.image.cursor ↔ rest = [] := by
    rw [hs.limit, hs.cursor, ← List.length_eq_zero_iff]
    omega
  rw [knownEnd, hs.sound.mode]
  simp only [hends]

theorem coin_ok {ends : Bool} (hs : Scanning .little b seen past rest s)
    (h : endOfFile endThreshold s = .ok ends t) :
    ends = decide (rest = []) ∧ t = coined s ends := by
  have hcodec := endCoin_codec (K := Kind) (T := True) endThreshold (by decide) (by decide)
  rw [endOfFile_run endThreshold (knownEnd_run hs)] at h
  obtain ⟨c, s', hcoin, hend⟩ := bind_ok.1 h
  obtain ⟨rfl, rfl, -⟩ := hcodec.forced s _ c s' trivial hcoin
  cases hend
  exact ⟨rfl, rfl⟩

theorem coin_run (hs : Scanning .little b seen past rest s)
    (hroom : s.stream.position + 1 ≤ s.stream.capacity) :
    endOfFile endThreshold s = .ok (decide (rest = [])) (coined s (decide (rest = []))) := by
  have hcodec := endCoin_codec (K := Kind) (T := True) endThreshold (by decide) (by decide)
  rw [endOfFile_run endThreshold (knownEnd_run hs), bind_run (hcodec.force s _ trivial ?_)]
  · rfl
  · rw [endCode, coinCode_length]
    exact hroom

theorem trailing_ok {r : Unit ⊕ Unit} (hs : Scanning .little b seen past rest s)
    (h : trailing.run s = .ok r t) :
    (rest = [] ∧ r = .inr () ∧ t = coined s true) ∨
      (r = .inl () ∧ Kind.junk.production.run (coined s false) = .ok () t) := by
  rw [trailing, run_bind, run_request] at h
  obtain ⟨ends, s', hcoin, h⟩ := bind_ok.1 h
  obtain ⟨hends, rfl⟩ := coin_ok hs hcoin
  cases ends with
  | true =>
    cases h
    exact Or.inl ⟨of_decide_eq_true hends.symm, rfl, rfl⟩
  | false =>
    rw [if_neg Bool.false_ne_true, run_bind] at h
    obtain ⟨_, u, hjunk, hend⟩ := bind_ok.1 h
    cases hend
    exact Or.inr ⟨rfl, hjunk⟩

end Coins

def TakesJunk (p : InsertionPoint Kind) : Prop :=
  p.placement = .afterAppendable ∧ (p.kind = .data ∨ p.kind = .junk) ∨
    p.placement = .beforeOptional ∧ p.kind = .junk

def Pointed (n : Nat) (qs : List Piece) (points : List (InsertionPoint Kind)) : Prop :=
  ∀ p ∈ points, TakesJunk p → ∃ ps rs, qs = ps ++ rs ∧ Stage.opened.after ps = some .filled ∧
    p.fileOffset = 12 + (ps.flatMap Piece.bytes).length ∧
    p.decisionOffset = n + (ps.flatMap Piece.decisions).length

structure Sliced (b : Bool) (n : Nat) (qs : List Piece) (stage : Stage) (cs : List (Chunk Kind)) :
    Prop where
  fits : ∀ q ∈ qs, q.Fits b
  order : Stage.opened.after qs = some stage
  laid : Laid 12 n qs cs

def Flagged (cs : List (Chunk Kind)) : Prop := ∀ c ∈ cs, c.appendable = true ↔ c.kind ≠ .list

structure Cut (b : Bool) (head opening : Bytes) (qs : List Piece) (stage : Stage) (rest : Bytes)
    (cs : List (Chunk Kind)) (last : Chunk Kind) (used : NameCounts) (s : State Kind) : Prop
    extends Sliced b opening.length qs stage (cs ++ [last]) where
  header : head.length = 12
  closed : Closed (cs ++ [last]) used s
  scanning : Scanning .little b 0 (head ++ qs.flatMap Piece.bytes) rest s
  consumed : s.stream.consumed = opening ++ qs.flatMap Piece.decisions
  fresh : last.appendable = false
  flagged : Flagged cs
  pointed : Pointed opening.length qs s.tracker.points

section Cutting

variable {head opening : Bytes} {qs : List Piece} {stage next : Stage} {cs : List (Chunk Kind)}
  {last : Chunk Kind} {used : NameCounts} {look : Option Nat} {kind : Kind} {n : Nat} {a : Unit}
  {s' : State Kind}

theorem Pointed.snoc {points : List (InsertionPoint Kind)} (h : Pointed n qs points) (q : Piece) :
    Pointed n (qs ++ [q]) points := by
  intro p hp hjunk
  obtain ⟨ps, rs, rfl, hafter, hoffsets⟩ := h p hp hjunk
  exact ⟨ps, rs ++ [q], List.append_assoc _ _ _, hafter, hoffsets⟩

theorem Pointed.cons {points : List (InsertionPoint Kind)} {p : InsertionPoint Kind}
    (h : Pointed n qs points) (hafter : TakesJunk p → Stage.opened.after qs = some .filled)
    (hfile : p.fileOffset = 12 + (qs.flatMap Piece.bytes).length)
    (hdecision : p.decisionOffset = n + (qs.flatMap Piece.decisions).length) :
    Pointed n qs (p :: points) := by
  intro x hx hjunk
  rcases List.mem_cons.1 hx with rfl | hx
  · exact ⟨qs, [], (List.append_nil qs).symm, hafter hjunk, hfile, hdecision⟩
  · exact h x hx hjunk

/-- A chunk that is read behind the row is one more piece. -/
theorem Row.cut {u v d : Bytes} (hrow : Row cs used look s)
    (h : Sliced b opening.length qs stage cs)
    (hhead : head.length = 12) (hflagged : Flagged cs)
    (hcursor : s.image.cursor = (head ++ qs.flatMap Piece.bytes).length)
    (hlook : look.getD s.stream.position = (opening ++ qs.flatMap Piece.decisions).length)
    (hproduced : Produced kind.name kind 1 4 s t)
    (ht : Scanning .little b 0 (head ++ qs.flatMap Piece.bytes ++ u) v t)
    (hconsumed : t.stream.consumed = opening ++ qs.flatMap Piece.decisions ++ d)
    (hq : Piece.Fits b ⟨kind, look.isSome, u, d⟩)
    (hstep : stage.step (kind, look.isSome) = some next)
    (hpointed : Pointed opening.length qs s.tracker.points) :
    Cut b head opening (qs ++ [⟨kind, look.isSome, u, d⟩]) next v cs
      (childOf kind.name kind used look s t) (used.bump kind.name) t := by
  obtain ⟨hclosed, hpoints⟩ := hrow.child hproduced
  have hbytes : (qs ++ [(⟨kind, look.isSome, u, d⟩ : Piece)]).flatMap Piece.bytes =
      qs.flatMap Piece.bytes ++ u := by simp
  have hdecisions : (qs ++ [(⟨kind, look.isSome, u, d⟩ : Piece)]).flatMap Piece.decisions =
      qs.flatMap Piece.decisions ++ d := by simp
  have hend := ht.cursor
  have hlast := congrArg List.length hconsumed
  rw [Stream.length_consumed] at hlast
  simp only [List.length_append] at hcursor hlook hend hlast
  refine ⟨⟨?_, ?_, h.laid.snoc ⟨rfl, rfl, rfl, ?_, ?_⟩⟩, hhead, hclosed, ?_, ?_, rfl, hflagged, ?_⟩
  · intro q hmem
    rcases List.mem_append.1 hmem with hmem | hmem
    · exact h.fits q hmem
    · rw [List.mem_singleton.1 hmem]
      exact hq
  · rw [Stage.after_snoc h.order]
    exact hstep
  · show (⟨s.image.cursor, t.image.cursor⟩ : Span) = ⟨_, _ + u.length⟩
    rw [hcursor, hend, hhead]
  · show (⟨look.getD s.stream.position, t.stream.position⟩ : Span) = ⟨_, _ + d.length⟩
    rw [hlook, hlast]
  · rw [hbytes, ← List.append_assoc]
    exact ht
  · rw [hdecisions, ← List.append_assoc]
    exact hconsumed
  · rw [hpoints]
    split
    · -- The point in front of the chunk takes junk if the chunk is junk.
      apply Pointed.snoc
      apply hpointed.cons
      · rintro (⟨hplace, -⟩ | ⟨-, hkind⟩)
        · cases hplace
        · have hjunk : kind = .junk := hkind
          subst hjunk
          have hfilled := (Stage.step_junk (p := ⟨.junk, look.isSome, u, d⟩) hstep rfl).1
          rw [← hfilled]
          exact h.order
      · rw [← hhead]
        exact hcursor
      · exact hlook
    · exact hpointed.snoc _

/-- What a production reads behind the row is one more piece, with the look in front of it. -/
theorem Row.read (hrow : Row cs used look s) (h : Sliced b opening.length qs stage cs)
    (hhead : head.length = 12) (hflagged : Flagged cs)
    (hs : Scanning .little b ((head ++ qs.flatMap Piece.bytes).length + 4)
      (head ++ qs.flatMap Piece.bytes) rest s)
    (hconsumed : s.stream.consumed = opening ++ qs.flatMap Piece.decisions ++
      if look.isSome then kind.gate else [])
    (hlook : look.getD s.stream.position = (opening ++ qs.flatMap Piece.decisions).length)
    (hstep : stage.step (kind, look.isSome) = some next)
    (htold : kind = .list ∨ kind = .data → look.isSome = true → rest.take 4 = kind.tag)
    (hpointed : Pointed opening.length qs s.tracker.points)
    (hrun : kind.production.run s = .ok a t) :
    ∃ q v, rest = q.bytes ++ v ∧ Cut b head opening (qs ++ [q]) next v cs
      (childOf kind.name kind used look s t) (used.bump kind.name) t := by
  have hkind := Stage.step_inner hstep
  obtain ⟨u, v, d, rfl, ht, hnoted, hreads⟩ := Kind.reads hkind hs hrun
  have hproduced := Kind.produced hkind hrow.cursor_le hrow.size_le hrun
  have hall := hnoted.consumed
  rw [hconsumed, List.append_assoc] at hall
  refine ⟨⟨kind, look.isSome, u, _ ++ d⟩, v, rfl,
    hrow.cut h hhead hflagged hs.cursor hlook hproduced ht hall ⟨hkind, ⟨d, rfl, hreads⟩, ?_⟩
      hstep hpointed⟩
  intro hgated hoptional
  have htag := htold hgated hoptional
  rwa [List.take_append_of_le_length hreads.least] at htag

namespace Cut

theorem last_piece (h : Cut b head opening qs stage rest cs last used s) :
    ∃ (q : Piece) (mid : Stage), q.kind = last.kind ∧ mid.step q.label = some stage ∧
      last.file.stop = 12 + (qs.flatMap Piece.bytes).length ∧
      last.decisions.stop = opening.length + (qs.flatMap Piece.decisions).length := by
  obtain ⟨ps, rs, rfl, -, hlast⟩ := h.laid.split
  obtain ⟨q, rs, rfl, hq, hnil⟩ := hlast.head
  cases hnil
  obtain ⟨mid, hbefore, hstep⟩ := Stage.after_split h.order
  obtain ⟨next, hstep, hend⟩ := Stage.after_step hstep
  cases hend
  refine ⟨q, mid, hq.kind.symm, hstep, ?_, ?_⟩
  · rw [hq.file]
    simp [Nat.add_assoc]
  · rw [hq.decisions]
    simp [Nat.add_assoc]

theorem peeked (h : Cut b head opening qs stage rest cs last used s) (hstage : stage ≠ .listed)
    (hn : n ≤ 4) (hp : Peeked n s t) :
    Row (cs ++ [last.followed]) used (some s.stream.position) t ∧
      Flagged (cs ++ [last.followed]) ∧ Pointed opening.length qs t.tracker.points := by
  obtain ⟨q, mid, hkind, hstep, hfile, hdecisions⟩ := h.last_piece
  have hposition := congrArg List.length h.consumed
  rw [Stream.length_consumed, List.length_append] at hposition
  obtain ⟨hrow, hpoints⟩ := h.closed.peeked h.fresh (hdecisions.trans hposition.symm) hn hp
  refine ⟨hrow, ?_, ?_⟩
  · intro c hc
    rcases List.mem_append.1 hc with hc | hc
    · exact h.flagged c hc
    · rw [List.mem_singleton.1 hc]
      refine iff_of_true rfl fun hlist => hstage ?_
      exact Stage.listed_of_label hstep (hkind.trans hlist)
  · rw [hpoints]
    refine h.pointed.cons ?_ hfile hposition
    rintro (⟨-, hfills⟩ | ⟨hplace, -⟩)
    · rw [h.order, Stage.filled_of_label hstep (by rwa [hkind])]
    · cases hplace

/-- A production behind a look. -/
theorem gated (h : Cut b head opening qs stage rest cs last used s)
    (hstep : stage.step (kind, true) = some next) (hn : n ≤ 4) (hp : Peeked n s s')
    (hs' : Scanning .little b ((head ++ qs.flatMap Piece.bytes).length + 4)
      (head ++ qs.flatMap Piece.bytes) rest s') (hnoted : Noted kind.gate s s')
    (htold : kind = .list ∨ kind = .data → rest.take 4 = kind.tag)
    (hrun : kind.production.run s' = .ok a t) :
    ∃ q v last' used', rest = q.bytes ++ v ∧
      Cut b head opening (qs ++ [q]) next v (cs ++ [last.followed]) last' used' t := by
  have hlisted : stage ≠ .listed := by
    rintro rfl
    exact absurd hstep (by cases kind <;> simp [Stage.step])
  obtain ⟨hrow, hflagged, hpointed⟩ := h.peeked hlisted hn hp
  have hposition := congrArg List.length h.consumed
  rw [Stream.length_consumed] at hposition
  have hconsumed := hnoted.consumed
  rw [h.consumed] at hconsumed
  obtain ⟨q, v, hrest, hcut⟩ := hrow.read ⟨h.fits, h.order, h.laid.followed⟩ h.header hflagged hs'
    hconsumed hposition hstep (fun hkind _ => htold hkind) hpointed hrun
  exact ⟨q, v, _, _, hrest, hcut⟩

theorem plain (h : Cut b head opening qs .listed rest cs last used s)
    (hrun : Kind.data.production.run s = .ok a t) :
    ∃ q v last' used', rest = q.bytes ++ v ∧
      Cut b head opening (qs ++ [q]) .filled v (cs ++ [last]) last' used' t := by
  obtain ⟨p, mid, hkind, hstep, -, -⟩ := h.last_piece
  have hlist : last.kind = .list := hkind.symm.trans (Stage.kind_of_listed hstep)
  have hflagged : Flagged (cs ++ [last]) := by
    intro c hc
    rcases List.mem_append.1 hc with hc | hc
    · exact h.flagged c hc
    · rw [List.mem_singleton.1 hc, h.fresh, hlist]
      exact iff_of_false Bool.false_ne_true fun hne => hne rfl
  have hposition := congrArg List.length h.consumed
  rw [Stream.length_consumed] at hposition
  obtain ⟨q, v, hrest, hcut⟩ := h.closed.toRow.read h.toSliced h.header hflagged
    (h.scanning.weaken (by omega)) (h.consumed.trans (List.append_nil _).symm) hposition
    (show Stage.step .listed (.data, false) = some .filled from rfl)
    (fun _ hoptional => nomatch hoptional) h.pointed hrun
  exact ⟨q, v, _, _, hrest, hcut⟩

theorem round (h : Cut b head opening qs .filled rest cs last used s)
    (hrun : trailing.run s = .ok (.inl ()) t) :
    ∃ q v last' used', rest = q.bytes ++ v ∧
      Cut b head opening (qs ++ [q]) .filled v (cs ++ [last.followed]) last' used' t := by
  rcases trailing_ok h.scanning hrun with ⟨-, hend, -⟩ | ⟨-, hjunk⟩
  · cases hend
  · exact h.gated (show Stage.filled.step (.junk, true) = some .filled from rfl) (Nat.zero_le 4)
      (coined_peeked h.closed.size false)
      ((coined_scanning h.scanning false).weaken (by omega)) (coined_noted s false)
      (fun hkind => nomatch hkind) hjunk

theorem rounds {x x' : Unit} (hr : Rounds (fun _ => trailing.run) x s x' t)
    (h : Cut b head opening qs .filled rest cs last used s) :
    ∃ ps v cs' last' used', rest = ps.flatMap Piece.bytes ++ v ∧
      Cut b head opening (qs ++ ps) .filled v cs' last' used' t := by
  induction hr generalizing qs rest cs last used with
  | here x s => exact ⟨[], rest, cs, last, used, rfl, by rwa [List.append_nil]⟩
  | next hstep _ ih =>
    obtain ⟨q, v, last', used', rfl, hcut⟩ := h.round hstep
    obtain ⟨ps, v', cs', last'', used'', rfl, hcut'⟩ := ih hcut
    refine ⟨q :: ps, v', cs', last'', used'', ?_, ?_⟩
    · rw [List.flatMap_cons, List.append_assoc]
    · rwa [List.append_assoc] at hcut'

/-- Behind a format a look tells whether there is a list. -/
theorem looked {bs : Bytes} (h : Cut b head opening qs stage rest cs last used s)
    (hx : (underEvil false (request (.lookBytes 0 4 [listTag, dataTag])) :
      Grammar Kind Bytes).run s = .ok bs t) :
    Peeked 4 s t ∧ rest.take 4 = bs ∧
      Scanning .little b ((head ++ qs.flatMap Piece.bytes).length + 4)
        (head ++ qs.flatMap Piece.bytes) rest t ∧
      (bs = listTag ∧ Noted Kind.list.gate s t ∨ bs = dataTag ∧ Noted Kind.data.gate s t) := by
  have hlooked := Looked.underEvil hx
  have hahead : Scanning .little b ((head ++ qs.flatMap Piece.bytes).length + 4)
      (head ++ qs.flatMap Piece.bytes) rest s := h.scanning.weaken (by omega)
  obtain ⟨hmem, hbs, ht, hnoted⟩ := hahead.looked (by decide) (by decide) (by decide) (by decide)
    (Nat.le_refl _) hx
  have hsize := hlooked.size
  have hclosed := h.closed.size
  refine ⟨⟨hlooked.cursor, by omega, hlooked.tracker⟩, hbs.symm, ht, ?_⟩
  have hcases : bs = listTag ∨ bs = dataTag := by simpa using hmem
  rcases hcases with rfl | rfl
  · exact Or.inl ⟨rfl, hnoted⟩
  · exact Or.inr ⟨rfl, hnoted⟩

end Cut

end Cutting

end Riff

end DecisionWalk
