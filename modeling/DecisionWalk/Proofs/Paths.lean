import DecisionWalk.Disk.FileTree

/-!
# Paths in a file tree

A plain name joined to a directory names a place in that directory, whichever
way the directory is spelled. A file that is put into a free place changes
nothing else: what could be read can still be read.
-/

set_option autoImplicit false

namespace DecisionWalk

namespace Disk

structure Plain (name : String) : Prop where
  slash : '/' ∉ name.toList
  filled : name ≠ ""
  dot : name ≠ "."
  dots : name ≠ ".."

theorem namesOf_slash (a b : String) : namesOf (a ++ "/" ++ b) = namesOf a ++ namesOf b := by
  have htext : (a ++ "/" ++ b).toList = a.toList ++ '/' :: b.toList := by
    simp [String.toList_append]
  rw [namesOf, htext, List.splitOn_append_cons_self, List.map_append, namesOf, namesOf]

theorem namesOf_plain {name : String} (h : '/' ∉ name.toList) : namesOf name = [name] := by
  rw [namesOf, List.splitOn_eq_singleton h, List.map_singleton, String.ofList_toList]

theorem endsWith_slash {dir : String} (h : dir.endsWith "/" = true) : ∃ a, dir = a ++ "/" := by
  rw [String.endsWith_eq_endsWith_toSlice, String.Slice.endsWith_string_iff,
    String.copy_toSlice] at h
  obtain ⟨cs, hcs⟩ := h
  refine ⟨String.ofList cs, String.toList_inj.1 ?_⟩
  rw [String.toList_append, String.toList_ofList, hcs]

/-- The names in a joined path are those of the directory, but for an empty one at its end, and
the name. -/
theorem namesOf_join {name : String} (h : '/' ∉ name.toList) (dir : String) :
    ∃ names, namesOf (join dir name) = names ++ [name] ∧
      (namesOf dir = names ∨ namesOf dir = names ++ [""]) := by
  have hname := namesOf_plain h
  rw [join]
  split
  case isTrue hempty =>
    rw [String.isEmpty_iff.1 hempty]
    exact ⟨[], hname, .inr rfl⟩
  case isFalse =>
    split
    case isTrue hend =>
      obtain ⟨a, rfl⟩ := endsWith_slash hend
      have hdir : namesOf (a ++ "/") = namesOf a ++ [""] := by
        have hslash := namesOf_slash a ""
        rwa [String.append_empty] at hslash
      exact ⟨namesOf a, by rw [namesOf_slash, hname], .inr hdir⟩
    case isFalse => exact ⟨namesOf dir, by rw [namesOf_slash, hname], .inl rfl⟩

theorem starts_slash (path : String) :
    path.startsWith "/" = true ↔ path.toList.head? = some '/' := by
  have hslash : "/".toList = ['/'] := rfl
  rw [String.startsWith_string_iff, hslash]
  cases path.toList <;> simp [eq_comm]

theorem starts_append {a : String} (h : a ≠ "") (b : String) :
    (a ++ b).startsWith "/" = a.startsWith "/" := by
  rw [Bool.eq_iff_iff, starts_slash, starts_slash, String.toList_append]
  cases ha : a.toList with
  | nil => exact absurd (String.toList_inj.1 ha) h
  | cons c cs => simp

theorem startsWith_join {name : String} (h : '/' ∉ name.toList) (dir : String) :
    (join dir name).startsWith "/" = dir.startsWith "/" := by
  rw [join]
  split
  case isTrue hempty =>
    rw [String.isEmpty_iff.1 hempty, Bool.eq_iff_iff, starts_slash, starts_slash]
    constructor
    · intro hc
      exact absurd (List.mem_of_mem_head? hc) h
    · intro hc
      cases hc
  case isFalse hne =>
    have hdir : dir ≠ "" := fun he => hne (String.isEmpty_iff.2 he)
    split
    · exact starts_append hdir name
    · rw [String.append_assoc]
      exact starts_append hdir _

end Disk

namespace FileTree

variable {t : FileTree} {p q : Place} {e : Entry} {dir name path : String}

section Following

theorem follow_append (t : FileTree) (p : Place) (xs ys : List String) :
    t.follow p (xs ++ ys) = (t.follow p xs).bind fun q => t.follow q ys := by
  induction xs generalizing p with
  | nil => rfl
  | cons x xs ih =>
    rw [List.cons_append, follow, follow]
    split
    · rfl
    · split
      · rfl
      · split
        · exact ih p
        · split
          · exact ih p.dropLast
          · split
            · rfl
            · split
              · exact ih _
              · rfl

/-- An empty name makes sure of a directory. -/
theorem follow_blank : t.follow p [""] = .ok q ↔
    q = p ∧ ∃ e, t.find? p = some e ∧ e.isDir = true := by
  rw [follow]
  cases t.find? p with
  | none => simp
  | some e =>
    cases he : e.isDir with
    | false => simp [he]
    | true =>
      simp only [he, Bool.not_true, Bool.false_eq_true, if_false, true_or, if_true, follow,
        Except.ok.injEq, Option.some.injEq, exists_eq_left', and_true]
      exact eq_comm

def dirAt (t : FileTree) (path : String) : Except DiskError Place :=
  t.follow (t.start path) (Disk.namesOf path ++ [""])

theorem follow_to_dir (xs : List String) : t.follow p (xs ++ [""]) = .ok q ↔
    t.follow p xs = .ok q ∧ ∃ e, t.find? q = some e ∧ e.isDir = true := by
  rw [follow_append]
  cases hx : t.follow p xs with
  | error e => simp [Except.bind]
  | ok q' =>
    rw [Except.bind, follow_blank]
    constructor
    · rintro ⟨rfl, he⟩
      exact ⟨rfl, he⟩
    · rintro ⟨⟨⟩, he⟩
      exact ⟨rfl, he⟩

theorem dirAt_iff {names : List String}
    (h : Disk.namesOf dir = names ∨ Disk.namesOf dir = names ++ [""]) :
    t.dirAt dir = .ok p ↔ t.follow (t.start dir) (names ++ [""]) = .ok p := by
  rcases h with h | h
  · rw [dirAt, h]
  · rw [dirAt, h, follow_to_dir (names ++ [""])]
    refine ⟨fun h => h.1, fun h => ⟨h, ?_⟩⟩
    exact ((follow_to_dir names).1 h).2

theorem start_join (h : '/' ∉ name.toList) : t.start (Disk.join dir name) = t.start dir := by
  rw [start, start, Disk.startsWith_join h]

end Following

section Joining

theorem names_ok {names : List String} (h : FileTree.names path = .ok names) :
    names = Disk.namesOf path := by
  rw [FileTree.names] at h
  split at h
  · cases h
  · split at h
    · cases h
    · split at h <;> cases h
      rfl

/-- A joined path asks for a place in its directory. -/
theorem site_join (hname : Disk.Plain name) {s : Site}
    (h : t.site (Disk.join dir name) = .ok s) :
    (∃ names, FileTree.names (Disk.join dir name) = .ok names) ∧
      ∃ p, t.dirAt dir = .ok p ∧ s = ⟨p, name, false⟩ := by
  obtain ⟨xs, hxs, hdir⟩ := Disk.namesOf_join hname.slash dir
  rw [site, start_join hname.slash] at h
  cases hn : FileTree.names (Disk.join dir name) with
  | error e =>
    rw [hn] at h
    cases h
  | ok names =>
    refine ⟨⟨names, rfl⟩, ?_⟩
    have hnames : names.reverse = name :: xs.reverse := by
      rw [names_ok hn, hxs, List.reverse_append]
      rfl
    have hkept : names.reverse.dropWhile (· = "") = name :: xs.reverse := by
      rw [hnames, List.dropWhile_cons_of_neg (by simpa using hname.filled)]
    rw [hn] at h
    simp only [bind, Except.bind, hkept, List.tail_cons, List.reverse_reverse] at h
    cases hf : t.follow (t.start dir) (xs ++ [""]) with
    | error e =>
      rw [hf] at h
      cases h
    | ok p =>
      rw [hf] at h
      cases h
      refine ⟨p, (dirAt_iff hdir).2 hf, ?_⟩
      simp [hnames]

/-- A joined path names a place in its directory. -/
theorem resolve_join (hname : Disk.Plain name) :
    t.resolve (Disk.join dir name) = .ok q ↔
      (∃ names, FileTree.names (Disk.join dir name) = .ok names) ∧
      ∃ p, t.dirAt dir = .ok p ∧ t.find? p ≠ some .sealedDir ∧ fits name = true ∧
        q = p ++ [name] := by
  obtain ⟨xs, hxs, hdir⟩ := Disk.namesOf_join hname.slash dir
  rw [resolve, start_join hname.slash]
  cases hn : FileTree.names (Disk.join dir name) with
  | error e => simp [bind, Except.bind]
  | ok names =>
    have hstep : ∀ p : Place, t.follow p [name] = .ok q ↔
        (∃ e, t.find? p = some e ∧ e.isDir = true) ∧ t.find? p ≠ some .sealedDir ∧
          fits name = true ∧ q = p ++ [name] := by
      intro p
      rw [follow]
      cases t.find? p with
      | none => simp
      | some e =>
        by_cases hd : e.isDir = true
        · by_cases hs : e = .sealedDir
          · simp [hs, Entry.isDir, hname.filled, hname.dot, hname.dots]
          · by_cases hfit : fits name = true
            · have hswap : p ++ [name] = q ↔ q = p ++ [name] := eq_comm
              simp [hd, hs, hname.filled, hname.dot, hname.dots, hfit, follow, hswap]
            · simp [hd, hs, hname.filled, hname.dot, hname.dots, hfit]
        · simp [hd]
    have hfollow : t.follow (t.start dir) names =
        (t.follow (t.start dir) xs).bind fun p => t.follow p [name] := by
      rw [names_ok hn, hxs, follow_append]
    show t.follow (t.start dir) names = .ok q ↔ _
    rw [hfollow]
    simp only [dirAt_iff hdir, follow_to_dir]
    cases t.follow (t.start dir) xs with
    | error e => simp [Except.bind]
    | ok p =>
      rw [Except.bind, hstep]
      constructor
      · rintro ⟨he, hs, hfit, rfl⟩
        exact ⟨⟨names, rfl⟩, p, ⟨rfl, he⟩, hs, hfit, rfl⟩
      · rintro ⟨-, p', ⟨⟨⟩, he⟩, hs, hfit, rfl⟩
        exact ⟨he, hs, hfit, rfl⟩

end Joining

section Setting

theorem lookup_assign (p q : Place) (e : Entry) (entries : List (Place × Entry)) :
    (assign p e entries).lookup q = if q = p then some e else entries.lookup q := by
  induction entries with
  | nil =>
    rw [assign, List.lookup_cons]
    by_cases h : q = p
    · simp [h]
    · simp [h, beq_eq_false_iff_ne.2 h]
  | cons entry entries ih =>
    obtain ⟨r, old⟩ := entry
    rw [assign]
    by_cases hr : r = p
    · rw [if_pos hr, List.lookup_cons, List.lookup_cons, hr]
      by_cases h : q = p
      · simp [h]
      · simp [h, beq_eq_false_iff_ne.2 h]
    · rw [if_neg hr, List.lookup_cons, List.lookup_cons, ih]
      by_cases h : q = r
      · have hne : q ≠ p := h ▸ hr
        simp [h, hr]
      · simp [beq_eq_false_iff_ne.2 h]

theorem assign_free {entries : List (Place × Entry)} (h : entries.lookup p = none) (e : Entry) :
    assign p e entries = entries ++ [(p, e)] := by
  induction entries with
  | nil => rfl
  | cons entry entries ih =>
    obtain ⟨r, old⟩ := entry
    rw [List.lookup_cons] at h
    by_cases hr : r = p
    · simp [hr] at h
    · rw [beq_eq_false_iff_ne.2 (Ne.symm hr)] at h
      rw [assign, if_neg hr, ih h]
      rfl

theorem ne_nil_of_free (h : t.find? p = none) : p ≠ [] := by
  rintro rfl
  cases h

theorem lookup_free (h : t.find? p = none) : t.entries.lookup p = none := by
  rwa [find?, if_neg (by simpa using ne_nil_of_free h)] at h

theorem find?_set (h : p ≠ []) (t : FileTree) (e : Entry) (q : Place) :
    (t.set p e).find? q = if q = p then some e else t.find? q := by
  by_cases hq : q = []
  · subst hq
    rw [if_neg (Ne.symm h)]
    rfl
  · have hne : ¬ q.isEmpty = true := by simpa using hq
    rw [find?, find?, if_neg hne, if_neg hne]
    exact lookup_assign p q e t.entries

theorem find?_set_free (h : t.find? p = none) (e : Entry) {old : Entry}
    (hq : t.find? q = some old) : (t.set p e).find? q = some old := by
  rw [find?_set (ne_nil_of_free h), if_neg, hq]
  rintro rfl
  rw [h] at hq
  cases hq

theorem follow_set_free (h : t.find? p = none) (e : Entry) {xs : List String} {at_ : Place}
    (hx : t.follow at_ xs = .ok q) : (t.set p e).follow at_ xs = .ok q := by
  induction xs generalizing at_ with
  | nil => exact hx
  | cons x xs ih =>
    rw [follow] at hx ⊢
    cases hold : t.find? at_ with
    | none =>
      rw [hold] at hx
      cases hx
    | some old =>
      rw [hold] at hx
      rw [find?_set_free h e hold]
      dsimp only at hx ⊢
      split at hx
      · cases hx
      case isFalse hdir =>
        rw [if_neg hdir]
        split at hx
        case isTrue hdot =>
          rw [if_pos hdot]
          exact ih hx
        case isFalse hdot =>
          rw [if_neg hdot]
          split at hx
          case isTrue hup =>
            rw [if_pos hup]
            exact ih hx
          case isFalse hup =>
            rw [if_neg hup]
            split at hx
            · cases hx
            case isFalse hopen =>
              rw [if_neg hopen]
              split at hx
              case isTrue hfit =>
                rw [if_pos hfit]
                exact ih hx
              case isFalse => cases hx

theorem dirAt_set_free (h : t.find? p = none) (e : Entry) (hd : t.dirAt dir = .ok q) :
    (t.set p e).dirAt dir = .ok q := follow_set_free h e hd

theorem resolve_set_free (h : t.find? p = none) (e : Entry) (hr : t.resolve path = .ok q) :
    (t.set p e).resolve path = .ok q := by
  rw [resolve] at hr ⊢
  cases hn : FileTree.names path with
  | error e' =>
    rw [hn] at hr
    cases hr
  | ok names =>
    rw [hn] at hr
    exact follow_set_free h e hr

theorem read_set_free (h : t.find? p = none) (e : Entry) {bytes : Bytes}
    (hr : t.read path = .ok bytes) : (t.set p e).read path = .ok bytes := by
  rw [read] at hr ⊢
  cases hq : t.resolve path with
  | error e' =>
    rw [hq] at hr
    cases hr
  | ok q =>
    rw [hq] at hr
    rw [resolve_set_free h e hq]
    simp only [bind, Except.bind] at hr ⊢
    cases hold : t.find? q with
    | none =>
      rw [hold] at hr
      cases hr
    | some old =>
      rw [hold] at hr
      rw [find?_set_free h e hold]
      exact hr

theorem mem_namesIn (h : t.find? (p ++ [name]) = some e) : name ∈ t.namesIn p := by
  rw [find?, if_neg (by simp)] at h
  rw [namesIn, List.mem_filterMap]
  refine ⟨(p ++ [name], e), ?_, by simp⟩
  obtain ⟨before, behind, hentries, -⟩ := List.lookup_eq_some_iff.1 h
  rw [hentries]
  simp

theorem namesIn_set_free (h : t.find? (p ++ [name]) = none) (e : Entry) :
    (t.set (p ++ [name]) e).namesIn p = t.namesIn p ++ [name] := by
  show List.filterMap _ (assign (p ++ [name]) e t.entries) = _
  rw [assign_free (lookup_free h), List.filterMap_append]
  simp [namesIn]

end Setting

/-- A file with a new name is put beside the others. -/
theorem write_join (hname : Disk.Plain name) {bytes : Bytes} {t' : FileTree}
    (h : t.write (Disk.join dir name) bytes = .ok t')
    (hnew : ∀ p, t.dirAt dir = .ok p → name ∉ t.namesIn p) :
    ∃ p, t.dirAt dir = .ok p ∧ t.find? (p ++ [name]) = none ∧
      t.site (Disk.join dir name) = .ok ⟨p, name, false⟩ ∧
      t' = t.set (p ++ [name]) (.file bytes) ∧ t'.read (Disk.join dir name) = .ok bytes := by
  rw [write] at h
  cases hs : t.site (Disk.join dir name) with
  | error e =>
    rw [hs] at h
    cases h
  | ok s =>
    rw [hs] at h
    obtain ⟨hnames, p, hp, rfl⟩ := site_join hname hs
    have hfree : t.find? (p ++ [name]) = none := by
      cases hf : t.find? (p ++ [name]) with
      | none => rfl
      | some e => exact absurd (mem_namesIn hf) (hnew p hp)
    simp only [bind, Except.bind, Site.place, hfree] at h
    split at h
    · cases h
    · split at h
      · cases h
      case isFalse hopen =>
        split at h
        · cases h
        case isFalse hfits =>
          cases h
          have hfit : fits name = true := by simpa using hfits
          refine ⟨p, hp, hfree, rfl, rfl, ?_⟩
          have hresolve : t.resolve (Disk.join dir name) = .ok (p ++ [name]) :=
            (resolve_join hname).2 ⟨hnames, p, hp, hopen, hfit, rfl⟩
          rw [read, resolve_set_free hfree _ hresolve]
          simp only [bind, Except.bind]
          rw [find?_set (ne_nil_of_free hfree), if_pos rfl]

/-- A new name is not there yet. -/
theorem lookup?_join (hname : Disk.Plain name)
    (hnew : ∀ p, t.dirAt dir = .ok p → name ∉ t.namesIn p) :
    t.lookup? (Disk.join dir name) = none := by
  rw [lookup?]
  cases hr : t.resolve (Disk.join dir name) with
  | error e => rfl
  | ok q =>
    obtain ⟨-, p, hp, -, -, rfl⟩ := (resolve_join hname).1 hr
    cases hf : t.find? (p ++ [name]) with
    | none => exact hf
    | some e => exact absurd (mem_namesIn hf) (hnew p hp)

end FileTree

end DecisionWalk
