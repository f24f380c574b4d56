import DecisionWalk.Proofs.MachineScopes

/-!
# How chunks are named

A chunk has the name of the chunk around it, a dot, and the name that its
production was opened under, with a number behind it if earlier siblings were
opened under that name too. Where the names of productions hold no dot and no
bracket, the name of a chunk can be taken apart again, so no two chunks share
one.

A tracker counts names among siblings, for each production that is open and once
for all that stand alone. What it has counted is what it has named, however the
productions are nested. Requests and productions that close leave the names alone.
-/

set_option autoImplicit false

namespace DecisionWalk

def PlainName (name : String) : Prop := '.' ∉ name.toList ∧ '[' ∉ name.toList

instance (name : String) : Decidable (PlainName name) := inferInstanceAs (Decidable (_ ∧ _))

/-- A list can be cut only in one way at the last place where `d` stands. -/
theorem cut_at_last {α : Type} {a b x y : List α} {d : α} (hx : d ∉ x) (hy : d ∉ y)
    (h : a ++ d :: x = b ++ d :: y) : a = b ∧ x = y := by
  rcases List.append_eq_append_iff.1 h with ⟨mid, rfl, hmid⟩ | ⟨mid, rfl, hmid⟩
  · cases mid with
    | nil => exact ⟨(List.append_nil a).symm, (List.cons.inj hmid).2⟩
    | cons e mid =>
      refine absurd ?_ hx
      rw [(List.cons.inj hmid).2]
      simp
  · cases mid with
    | nil => exact ⟨List.append_nil b, (List.cons.inj hmid).2.symm⟩
    | cons e mid =>
      refine absurd ?_ hy
      rw [(List.cons.inj hmid).2]
      simp

theorem not_mem_digits {c : Char} (hc : c.isDigit = false) (n : Nat) :
    c ∉ Nat.toDigits 10 n := by
  intro h
  have hdigit := Nat.isDigit_of_mem_toDigits (by decide) (by decide) h
  rw [hc] at hdigit
  cases hdigit

theorem toList_instanceName (name : String) (n : Nat) : (instanceName name n).toList =
    if n = 0 then name.toList else name.toList ++ '[' :: (Nat.toDigits 10 n ++ [']']) := by
  rw [instanceName]
  split
  · rfl
  · simp [String.toList_append]

theorem instanceName_dotless {name : String} (h : PlainName name) (n : Nat) :
    '.' ∉ (instanceName name n).toList := by
  rw [toList_instanceName]
  split
  · exact h.1
  · simp [h.1, not_mem_digits]

/-- The name of an instance tells its production and its number. -/
theorem instanceName_inj {a b : String} {n m : Nat} (ha : PlainName a) (hb : PlainName b)
    (h : instanceName a n = instanceName b m) : a = b ∧ n = m := by
  have hlist := congrArg String.toList h
  have hrest : ∀ k : Nat, '[' ∉ Nat.toDigits 10 k ++ [']'] := by
    intro k
    simp [not_mem_digits]
  rw [toList_instanceName, toList_instanceName] at hlist
  split at hlist
  case isTrue hn =>
    split at hlist
    case isTrue hm => exact ⟨String.toList_inj.1 hlist, hn.trans hm.symm⟩
    case isFalse hm =>
      refine absurd ?_ ha.2
      rw [hlist]
      simp
  case isFalse hn =>
    split at hlist
    case isTrue hm =>
      refine absurd ?_ hb.2
      rw [← hlist]
      simp
    case isFalse hm =>
      obtain ⟨hname, hnumber⟩ := cut_at_last (hrest n) (hrest m) hlist
      have hvalue := congrArg (Nat.ofDigitChars 10 · 0) (List.append_cancel_right hnumber)
      simp only [Nat.ofDigitChars_ten_toDigits] at hvalue
      exact ⟨String.toList_inj.1 hname, hvalue⟩

def lead (names : List String) : Option Nat → String
  | none => ""
  | some j => names[j]?.getD "" ++ "."

inductive Spelled : List (Option Nat × String) → List String → Prop where
  | nil : Spelled [] []
  | snoc {entries : List (Option Nat × String)} {names : List String} (h : Spelled entries names)
      (parent : Option Nat) (scope : String) (hp : ∀ j, parent = some j → j < names.length) :
      Spelled (entries ++ [(parent, scope)])
        (names ++ [lead names parent ++ instanceName scope (entries.count (parent, scope))])

theorem lead_append {names : List String} {parent : Option Nat}
    (hp : ∀ j, parent = some j → j < names.length) (more : List String) :
    lead (names ++ more) parent = lead names parent := by
  cases parent with
  | none => rfl
  | some j => rw [lead, lead, List.getElem?_append_left (hp j rfl)]

/-- Where names differ, what is inside chunks is told apart by what stands in front. -/
theorem lead_inj {names : List String} (hn : names.Nodup) {p q : Option Nat} {x y : String}
    (hp : ∀ j, p = some j → j < names.length) (hq : ∀ j, q = some j → j < names.length)
    (hx : '.' ∉ x.toList) (hy : '.' ∉ y.toList) (h : lead names p ++ x = lead names q ++ y) :
    p = q ∧ x = y := by
  have hlead : ∀ (j : Nat) (z : String), (lead names (some j) ++ z).toList =
      (names[j]?.getD "").toList ++ '.' :: z.toList := by
    intro j z
    simp [lead, String.toList_append]
  have hlist := congrArg String.toList h
  cases p with
  | none =>
    cases q with
    | none =>
      refine ⟨rfl, String.toList_inj.1 ?_⟩
      simpa [lead] using hlist
    | some k =>
      refine absurd ?_ hx
      rw [hlead, String.toList_append] at hlist
      simp only [lead, String.toList_empty, List.nil_append] at hlist
      rw [hlist]
      simp
  | some j =>
    cases q with
    | none =>
      refine absurd ?_ hy
      rw [hlead, String.toList_append] at hlist
      simp only [lead, String.toList_empty, List.nil_append] at hlist
      rw [← hlist]
      simp
    | some k =>
      rw [hlead, hlead] at hlist
      obtain ⟨hname, hrest⟩ := cut_at_last hx hy hlist
      have hj := hp j rfl
      have hk := hq k rfl
      rw [List.getElem?_eq_getElem hj, List.getElem?_eq_getElem hk] at hname
      have hsame : names[j]? = names[k]? := by
        rw [List.getElem?_eq_getElem hj, List.getElem?_eq_getElem hk]
        exact congrArg some (String.toList_inj.1 hname)
      have hjk : j = k := (List.getElem?_inj hj hn).1 hsame
      exact ⟨congrArg some hjk, String.toList_inj.1 hrest⟩

namespace Spelled

variable {entries : List (Option Nat × String)} {names : List String}

theorem length (h : Spelled entries names) : entries.length = names.length := by
  induction h with
  | nil => rfl
  | snoc h parent scope hp ih => simp [ih]

/-- How each of the names is made. -/
theorem get (h : Spelled entries names) {i : Nat} {parent : Option Nat} {scope : String}
    (he : entries[i]? = some (parent, scope)) :
    (∀ j, parent = some j → j < i) ∧ names[i]? =
      some (lead names parent ++ instanceName scope ((entries.take i).count (parent, scope))) := by
  induction h with
  | nil => simp at he
  | @snoc entries names h parent' scope' hp ih =>
    have hlength := h.length
    by_cases hi : i < entries.length
    · rw [List.getElem?_append_left hi] at he
      obtain ⟨hlt, hget⟩ := ih he
      refine ⟨hlt, ?_⟩
      rw [List.getElem?_append_left (hlength ▸ hi), hget, List.take_append_of_le_length (by omega),
        lead_append fun j hj => Nat.lt_trans (hlt j hj) (hlength ▸ hi)]
    · have hlast : i = entries.length := by
        have hbound := (List.getElem?_eq_some_iff.1 he).1
        simp at hbound
        omega
      subst hlast
      rw [List.getElem?_concat_length] at he
      cases he
      refine ⟨fun j hj => hlength ▸ hp j hj, ?_⟩
      rw [lead_append hp, List.take_left, hlength, List.getElem?_concat_length]

theorem count_eq_zero (h : Spelled entries names) {j : Nat} (hj : names.length ≤ j + 1)
    (scope : String) : entries.count (some j, scope) = 0 := by
  rw [List.count_eq_zero]
  intro hmem
  obtain ⟨i, hi⟩ := List.getElem?_of_mem hmem
  have hlt := (h.get hi).1 j rfl
  have hbound := (List.getElem?_eq_some_iff.1 hi).1
  have hlength := h.length
  omega

/-- Names made from plain names differ. -/
theorem nodup (h : Spelled entries names) (hplain : ∀ e ∈ entries, PlainName e.2) :
    names.Nodup := by
  induction h with
  | nil => exact List.nodup_nil
  | @snoc entries names h parent scope hp ih =>
    have hold : ∀ e ∈ entries, PlainName e.2 := fun e he => hplain e (List.mem_append_left _ he)
    have hscope : PlainName scope := hplain (parent, scope) (by simp)
    have hn := ih hold
    rw [List.nodup_append]
    refine ⟨hn, by simp, ?_⟩
    intro name hname new hnew heq
    rw [List.mem_singleton.1 hnew] at heq
    -- An older chunk of that name is inside the same chunk and has the same scope and number.
    obtain ⟨i, hi⟩ := List.getElem?_of_mem hname
    have hlt : i < entries.length := h.length ▸ (List.getElem?_eq_some_iff.1 hi).1
    obtain ⟨⟨parent', scope'⟩, he⟩ : ∃ e, entries[i]? = some e := ⟨_, List.getElem?_eq_getElem hlt⟩
    obtain ⟨hparent, hget⟩ := h.get he
    have hscope' : PlainName scope' := hold _ (List.mem_of_getElem? he)
    have hsame := Option.some.inj (hget.symm.trans hi)
    rw [heq] at hsame
    obtain ⟨rfl, hinstance⟩ := lead_inj hn
      (fun j hj => Nat.lt_trans (hparent j hj) (h.length ▸ hlt)) hp
      (instanceName_dotless hscope' _) (instanceName_dotless hscope _) hsame
    obtain ⟨rfl, hcount⟩ := instanceName_inj hscope' hscope hinstance
    -- But the number of the older one does not count itself.
    have hsplit : entries = entries.take i ++ (parent', scope') :: entries.drop (i + 1) := by
      rw [List.getElem?_eq_getElem hlt] at he
      rw [← Option.some.inj he, List.getElem_cons_drop, List.take_append_drop]
    rw [hsplit, List.take_left' (by simp; omega), List.count_append, List.count_cons_self] at hcount
    omega

end Spelled

section Trackers

variable {K : Type}

structure Title where
  path : String
  slot : Nat
  children : NameCounts

def OpenProduction.title (o : OpenProduction) : Title := ⟨o.path, o.slot, o.children⟩

def Chunk.tag (c : Chunk K) : Option Nat × String := (c.parent, c.name)

theorem modify_tags (chunks : Array (Chunk K)) (i : Nat) {update : Chunk K → Chunk K}
    (h : ∀ c, (update c).tag = c.tag) :
    (chunks.modify i update).toList.map Chunk.tag = chunks.toList.map Chunk.tag := by
  apply List.ext_getElem?
  intro j
  rw [List.getElem?_map, List.getElem?_map, Array.getElem?_toList, Array.getElem?_toList,
    Array.getElem?_modify]
  split
  · rw [Option.map_map]
    exact congrArg (Option.map · _) (funext h)
  · rfl

namespace Tracker

variable {t u : Tracker K}

def tags (t : Tracker K) : List (Option Nat × String) := t.chunks.toList.map Chunk.tag

def names (t : Tracker K) : List String := t.tags.map Prod.snd

def entries (t : Tracker K) (scopes : List String) : List (Option Nat × String) :=
  (t.tags.map Prod.fst).zip scopes

def titles (t : Tracker K) : List Title := t.stack.map OpenProduction.title

theorem length_names (t : Tracker K) : t.names.length = t.chunks.size := by
  rw [names, tags, List.length_map, List.length_map, Array.length_toList]

def parent (t : Tracker K) : Option Nat := t.titles.head?.map Title.slot

theorem opened_tags (t : Tracker K) (name : String) (kind : K) (p cursor : Nat) :
    (t.opened name kind p cursor).tags = t.tags ++ [(t.parent, t.childPath name)] := by
  have hfresh : (t.fresh name kind p cursor).tag = (t.parent, t.childPath name) := by
    rw [Chunk.tag, fresh, parent, titles, List.head?_map, Option.map_map]
    rfl
  rw [tags, opened_chunks, Array.toList_push, List.map_append, List.map_singleton, hfresh, tags]

theorem opened_names (t : Tracker K) (name : String) (kind : K) (p cursor : Nat) :
    (t.opened name kind p cursor).names = t.names ++ [t.childPath name] := by
  rw [names, opened_tags, List.map_append, names]
  rfl

theorem opened_roots (t : Tracker K) (name : String) (kind : K) (p cursor : Nat) :
    (t.opened name kind p cursor).roots =
      if t.parent = none then t.roots.bump name else t.roots := by
  rw [parent, titles]
  cases hs : t.stack <;> simp [opened, countChild, hs]

theorem opened_titles (t : Tracker K) (name : String) (kind : K) (p cursor : Nat) :
    (t.opened name kind p cursor).titles = ⟨t.childPath name, t.chunks.size, []⟩ ::
      match t.titles with
      | [] => []
      | top :: rest => { top with children := top.children.bump name } :: rest := by
  rw [titles, opened_stack, titles]
  cases t.stack <;> rfl

structure Retitled (t u : Tracker K) : Prop where
  tags : u.tags = t.tags
  roots : u.roots = t.roots
  titles : u.titles.Sublist t.titles

namespace Retitled

theorem refl (t : Tracker K) : Retitled t t := ⟨rfl, rfl, .refl _⟩

theorem trans {v : Tracker K} (h : Retitled t u) (h' : Retitled u v) : Retitled t v :=
  ⟨h'.tags.trans h.tags, h'.roots.trans h.roots, h'.titles.trans h.titles⟩

theorem touch (t : Tracker K) (span : Span) : Retitled t (t.touch span) where
  tags := by rw [Tracker.tags, touch_chunks, Tracker.tags]
  roots := by
    rw [Tracker.touch]
    split
    · rfl
    · split <;> rfl
  titles := by
    rw [Tracker.titles, touch_map _ fun _ _ => rfl]
    exact .refl _

theorem lookahead (t : Tracker K) (span : Span) : Retitled t (t.lookahead span) where
  tags := by
    rw [Tracker.lookahead]
    split
    · rfl
    · exact modify_tags _ _ fun _ => rfl
  roots := lookahead_roots t span
  titles := by
    rw [Tracker.titles, lookahead_stack]
    exact .refl _

theorem closed (t : Tracker K) (p cursor : Nat) : Retitled t (t.closed p cursor) := by
  cases hs : t.stack with
  | nil =>
    rw [closed_nil hs]
    exact .refl t
  | cons top rest =>
    rw [closed_eq hs]
    refine ⟨modify_tags _ _ fun _ => rfl, rfl, ?_⟩
    rw [Tracker.titles, Tracker.titles, hs, absorb_map _ fun _ _ => rfl]
    exact List.sublist_cons_self _ _

theorem closeAll (t : Tracker K) (p cursor : Nat) : Retitled t (t.closeAll p cursor) := by
  have hrepeat : ∀ k, Retitled t (Nat.repeat (·.closed p cursor) k t) := by
    intro k
    induction k with
    | zero => exact .refl t
    | succ k ih => exact ih.trans (.closed _ p cursor)
  exact hrepeat t.depth

end Retitled

structure Named (t : Tracker K) (scopes : List String) : Prop where
  length : t.tags.length = scopes.length
  spelled : Spelled (t.entries scopes) t.names
  roots : ∀ name, t.roots.count name = (t.entries scopes).count (none, name)
  inside : ∀ o ∈ t.titles, t.names[o.slot]? = some o.path ∧
    ∀ name, o.children.count name = (t.entries scopes).count (some o.slot, name)
  slots : (t.titles.map Title.slot).Nodup

namespace Named

variable {scopes : List String}

theorem empty (maxDepth : Nat) : (Tracker.empty maxDepth : Tracker K).Named [] :=
  ⟨rfl, .nil, fun _ => rfl, fun _ h => (nomatch h), List.nodup_nil⟩

theorem retitled (h : t.Named scopes) (hr : Retitled t u) : u.Named scopes := by
  have hentries : u.entries scopes = t.entries scopes := by rw [entries, hr.tags, entries]
  have hnames : u.names = t.names := by rw [names, hr.tags, names]
  refine ⟨hr.tags ▸ h.length, ?_, ?_, ?_, h.slots.sublist (hr.titles.map _)⟩
  · rw [hentries, hnames]
    exact h.spelled
  · intro name
    rw [hr.roots, hentries]
    exact h.roots name
  · intro o ho
    rw [hentries, hnames]
    exact h.inside o (hr.titles.subset ho)

theorem slot_lt (h : t.Named scopes) {o : Title} (ho : o ∈ t.titles) :
    o.slot < t.names.length :=
  (List.getElem?_eq_some_iff.1 (h.inside o ho).1).1

theorem parent_lt (h : t.Named scopes) {j : Nat} (hj : t.parent = some j) :
    j < t.names.length := by
  obtain ⟨o, ho, rfl⟩ := Option.map_eq_some_iff.1 hj
  exact h.slot_lt (List.mem_of_head? ho)

/-- The counts of the tracker number the next chunk. -/
theorem childPath (h : t.Named scopes) (name : String) : t.childPath name =
    lead t.names t.parent ++ instanceName name ((t.entries scopes).count (t.parent, name)) := by
  have hroots := h.roots name
  have hinside := h.inside
  rw [Tracker.childPath, siblings, parent]
  rw [titles] at hinside ⊢
  cases hs : t.stack with
  | nil =>
    show _ = "" ++ instanceName name _
    rw [String.empty_append]
    exact congrArg (instanceName name) hroots
  | cons top rest =>
    rw [hs] at hinside
    obtain ⟨hpath, hcount⟩ := hinside top.title List.mem_cons_self
    show _ = t.names[top.slot]?.getD "" ++ "." ++ instanceName name _
    rw [show t.names[top.slot]? = some top.path from hpath]
    exact congrArg (top.path ++ "." ++ instanceName name ·) (hcount name)

section Opened

variable (h : t.Named scopes) (name : String) (kind : K) (p cursor : Nat)

include h

theorem entries_opened : (t.opened name kind p cursor).entries (scopes ++ [name]) =
    t.entries scopes ++ [(t.parent, name)] := by
  have hlength : (t.tags.map Prod.fst).length = scopes.length := by rw [List.length_map, h.length]
  rw [entries, opened_tags, List.map_append, List.zip_append hlength]
  rfl

theorem count_opened (q : Option Nat) (other : String) :
    ((t.opened name kind p cursor).entries (scopes ++ [name])).count (q, other) =
      (t.entries scopes).count (q, other) + if q = t.parent ∧ other = name then 1 else 0 := by
  rw [h.entries_opened, List.count_append, List.count_singleton]
  simp only [beq_iff_eq, Prod.mk.injEq, @eq_comm _ t.parent q, @eq_comm _ name other]

theorem roots_opened (other : String) : (t.opened name kind p cursor).roots.count other =
    ((t.opened name kind p cursor).entries (scopes ++ [name])).count (none, other) := by
  rw [opened_roots, h.count_opened, ← h.roots]
  by_cases hp : t.parent = none
  · rw [if_pos hp, NameCounts.count_bump, hp]
    simp
  · rw [if_neg hp, if_neg fun hq => hp hq.1.symm, Nat.add_zero]

theorem inside_opened {o : Title} (ho : o ∈ (t.opened name kind p cursor).titles) :
    (t.opened name kind p cursor).names[o.slot]? = some o.path ∧ ∀ other,
      o.children.count other =
        ((t.opened name kind p cursor).entries (scopes ++ [name])).count (some o.slot, other) := by
  have hold : ∀ o ∈ t.titles, (t.opened name kind p cursor).names[o.slot]? = some o.path := by
    intro o ho
    rw [opened_names, List.getElem?_append_left (h.slot_lt ho)]
    exact (h.inside o ho).1
  rw [opened_titles] at ho
  rcases List.mem_cons.1 ho with rfl | ho
  · -- Nothing is inside the new production.
    have hnew : some t.chunks.size ≠ t.parent := by
      intro hp
      exact Nat.lt_irrefl _ (t.length_names ▸ h.parent_lt hp.symm)
    refine ⟨?_, fun other => ?_⟩
    · rw [opened_names, ← t.length_names, List.getElem?_concat_length]
    · rw [h.count_opened, if_neg fun hq => hnew hq.1, ← t.length_names,
        h.spelled.count_eq_zero (Nat.le_succ _)]
      rfl
  · cases ht : t.titles with
    | nil =>
      rw [ht] at ho
      cases ho
    | cons top rest =>
      have hparent : t.parent = some top.slot := by
        rw [parent, ht]
        rfl
      have hinside := h.inside
      have hslots := h.slots
      rw [ht] at ho hold hinside hslots
      rcases List.mem_cons.1 ho with rfl | ho
      · refine ⟨hold top List.mem_cons_self, fun other => ?_⟩
        rw [h.count_opened, NameCounts.count_bump, hparent,
          (hinside top List.mem_cons_self).2 other]
        simp
      · -- Other productions are open in other slots.
        have hother : some o.slot ≠ t.parent := by
          rw [hparent]
          intro hsame
          refine (List.nodup_cons.1 hslots).1 ?_
          rw [← Option.some.inj hsame]
          exact List.mem_map_of_mem ho
        refine ⟨hold o (List.mem_cons_of_mem _ ho), fun other => ?_⟩
        rw [h.count_opened, if_neg fun hq => hother hq.1,
          (hinside o (List.mem_cons_of_mem _ ho)).2 other, Nat.add_zero]

theorem slots_opened : ((t.opened name kind p cursor).titles.map Title.slot).Nodup := by
  have hcons : (t.opened name kind p cursor).titles.map Title.slot =
      t.chunks.size :: t.titles.map Title.slot := by
    rw [opened_titles]
    cases t.titles <;> rfl
  rw [hcons, List.nodup_cons]
  refine ⟨fun hmem => ?_, h.slots⟩
  obtain ⟨o, ho, hslot⟩ := List.mem_map.1 hmem
  exact Nat.lt_irrefl _ (t.length_names ▸ hslot ▸ h.slot_lt ho)

/-- The production that opens gives its name to its chunk. -/
theorem opened : (t.opened name kind p cursor).Named (scopes ++ [name]) where
  length := by
    rw [opened_tags, List.length_append, List.length_append, h.length]
    rfl
  spelled := by
    rw [h.entries_opened, opened_names, h.childPath]
    exact h.spelled.snoc _ _ fun j => h.parent_lt
  roots := h.roots_opened name kind p cursor
  inside _ := h.inside_opened name kind p cursor
  slots := h.slots_opened name kind p cursor

end Opened

end Named

end Tracker

end Trackers

end DecisionWalk
