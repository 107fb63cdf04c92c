import LogicCircuit.FileStore.Basic
import LogicCircuit.Proofs.Association
import LogicCircuit.Proofs.Except

/-!
# Putting a file at a place

A file is put where a path leads to, in a directory that exists, and where there is no directory.
So it makes no new directories and takes none away, and all paths lead to where they led before.

Results:
* `content?_put`: what a file that is put at a place changes.
* `isDirectory_put`: the directories are the same.
* `target_put`: a path under which a file was put leads to the same place again.
-/

namespace LogicCircuit

namespace Place

variable {p q r : Place}

theorem isBelow_iff :
    p.isBelow q = true ↔ p.origin = q.origin ∧ q.names <+: p.names ∧ p.names ≠ q.names := by
  simp [isBelow, and_assoc]

theorem isBelow_trans (hpq : p.isBelow q = true) (hqr : q.isBelow r = true) :
    p.isBelow r = true := by
  rw [isBelow_iff] at hpq hqr ⊢
  obtain ⟨ho, hprefix, hne⟩ := hpq
  obtain ⟨ho', hprefix', hne'⟩ := hqr
  refine ⟨ho.trans ho', hprefix'.trans hprefix, fun he => ?_⟩
  have hlength := hprefix.length_le
  rw [he] at hlength
  exact hne' (hprefix'.eq_of_length_le hlength).symm

theorem isBelow_parent (h : p.names ≠ []) : p.isBelow p.parent = true := by
  rw [isBelow_iff, parent, if_neg (by simpa using h)]
  refine ⟨rfl, List.dropLast_prefix p.names, fun he => ?_⟩
  have hlength := congrArg List.length he
  have hpos := List.length_pos_of_ne_nil h
  rw [List.length_dropLast] at hlength
  omega

/-- A name in a directory lies below that directory and what that lies below. -/
theorem isBelow_child {name : String} (h : (p.child name).isBelow q = true) :
    q = p ∨ p.isBelow q = true := by
  rw [isBelow_iff, child] at h
  obtain ⟨ho, hprefix, hne⟩ := h
  rcases List.prefix_concat_iff.mp hprefix with he | hprefix
  · exact absurd he.symm hne
  · by_cases he : p.names = q.names
    · exact Or.inl (by cases p; cases q; simp_all)
    · exact Or.inr (isBelow_iff.mpr ⟨ho, hprefix, he⟩)

end Place

namespace FileStore

variable {s s' : FileStore} {place directory : Place}

/-- A file that is put at a place is found there, and all others are as they were. -/
theorem content?_put (s : FileStore) (place q : Place) (bytes : List UInt8) :
    (s.put place bytes).content? q = if q = place then some bytes else s.content? q := by
  have hfilter : s.files.filter (·.1 != place) = s.files.filter (·.1 ≠ place) :=
    List.filter_congr fun e _ => by by_cases he : e.1 = place <;> simp [he]
  rw [content?, put, lookup_cons_eq_ite, hfilter, lookup_filter_ne]
  split_ifs <;> rfl

theorem put_put (s : FileStore) (place : Place) (bytes bytes' : List UInt8) :
    (s.put place bytes).put place bytes' = s.put place bytes' := by
  simp [put]

/-! ## Directories -/

theorem isDirectory_iff : s.isDirectory place = true ↔
    place.names = [] ∨ ∃ e ∈ s.files, e.1.isBelow place = true := by
  simp [isDirectory]

/-- Every place that a directory lies below is a directory. -/
theorem isDirectory_of_isBelow (h : s.isDirectory directory = true)
    (hb : directory.isBelow place = true) : s.isDirectory place = true := by
  rw [isDirectory_iff] at h ⊢
  rcases h with hnil | ⟨e, he, hbelow⟩
  · rw [Place.isBelow_iff, hnil] at hb
    exact Or.inl (List.prefix_nil.mp hb.2.1)
  · exact Or.inr ⟨e, he, Place.isBelow_trans hbelow hb⟩

theorem isDirectory_parent (h : s.isDirectory directory = true) :
    s.isDirectory directory.parent = true := by
  by_cases hnil : directory.names = []
  · rw [isDirectory_iff, Place.parent, if_pos (by simpa using hnil)]
    exact Or.inl hnil
  · exact isDirectory_of_isBelow h (Place.isBelow_parent hnil)

/-! ## Following a path -/

/-- A part of a path is looked up in a directory, and leads to a directory or to a name in it. -/
theorem enter_eq_ok {part : String} (h : s.enter directory part = .ok place) :
    s.isDirectory directory = true ∧
      (s.isDirectory place = true ∨ place = directory.child part) := by
  unfold enter at h
  by_cases hd : s.isDirectory directory = true
  · refine ⟨hd, ?_⟩
    rw [if_neg (by simp [hd])] at h
    split_ifs at h
    · cases h
      exact Or.inl hd
    · cases h
      exact Or.inl (isDirectory_parent hd)
    · cases h
      exact Or.inr rfl
  · rw [if_pos (by simpa using hd)] at h
    cases h

/-- A file can be created in a directory, where there is no directory of its name. -/
theorem target_eq_ok_iff {path : String} : s.target path = .ok place ↔
    ∃ p directory part, Path.accept path = .ok p ∧
      s.follow p.start p.parts.dropLast = .ok directory ∧ p.parts.getLast? = some part ∧
      (p.endsInSlash && s.isDirectory directory) = false ∧
      s.enter directory part = .ok place ∧ s.isDirectory place = false := by
  rw [target, bind_eq_ok]
  refine exists_congr fun p => ?_
  simp only [bind_eq_ok]
  constructor
  · rintro ⟨hp, directory, hd, h⟩
    cases hpart : p.parts.getLast? with
    | none =>
      rw [hpart] at h
      cases h
    | some part =>
      rw [hpart] at h
      simp only at h
      by_cases hslash : (p.endsInSlash && s.isDirectory directory) = true
      · rw [if_pos hslash] at h
        cases h
      · rw [if_neg hslash, bind_eq_ok] at h
        obtain ⟨q, henter, h⟩ := h
        by_cases hq : s.isDirectory q = true
        · rw [if_pos hq] at h
          cases h
        · rw [if_neg hq] at h
          cases h
          exact ⟨directory, part, hp, hd, rfl, Bool.eq_false_iff.mpr hslash, henter,
            Bool.eq_false_iff.mpr hq⟩
  · rintro ⟨directory, part, hp, hd, hpart, hslash, henter, hplace⟩
    refine ⟨hp, directory, hd, ?_⟩
    rw [hpart]
    simp only [hslash, henter, ok_bind, hplace]
    rfl

/-- A file that is put where it can be created makes no directory and takes none away. -/
theorem isDirectory_put {path : String} (h : s.target path = .ok place) (bytes : List UInt8)
    (q : Place) : (s.put place bytes).isDirectory q = s.isDirectory q := by
  obtain ⟨_, directory, part, -, -, -, -, henter, hplace⟩ := target_eq_ok_iff.mp h
  obtain ⟨hd, hchild⟩ := enter_eq_ok henter
  have hin : place = directory.child part := hchild.resolve_left (by simp [hplace])
  rw [Bool.eq_iff_iff, isDirectory_iff, isDirectory_iff]
  constructor
  · rintro (hnil | ⟨e, he, hbelow⟩)
    · exact Or.inl hnil
    · rcases List.mem_cons.mp he with rfl | he
      · rw [← isDirectory_iff]
        rw [hin] at hbelow
        rcases Place.isBelow_child hbelow with rfl | hbelow
        · exact hd
        · exact isDirectory_of_isBelow hd hbelow
      · exact Or.inr ⟨e, (List.mem_filter.mp he).1, hbelow⟩
  · rintro (hnil | ⟨e, he, hbelow⟩)
    · exact Or.inl hnil
    · by_cases heq : e.1 = place
      · exact Or.inr ⟨(place, bytes), List.mem_cons_self, heq ▸ hbelow⟩
      · refine Or.inr ⟨e, List.mem_cons_of_mem _ (List.mem_filter.mpr ⟨he, ?_⟩), hbelow⟩
        exact bne_iff_ne.mpr heq

section SameDirectories

variable (hd : ∀ q, s'.isDirectory q = s.isDirectory q)

include hd

theorem enter_congr {part : String} (h : s.enter directory part = .ok place) :
    s'.enter directory part = .ok place := by
  obtain ⟨hdirectory, -⟩ := enter_eq_ok h
  unfold enter at h ⊢
  rw [if_neg (by simp [hdirectory])] at h
  rwa [if_neg (by simp [hd, hdirectory])]

theorem follow_congr {parts : List String} (h : s.follow directory parts = .ok place) :
    s'.follow directory parts = .ok place := by
  induction parts generalizing directory with
  | nil => exact h
  | cons part parts ih =>
    rw [follow, bind_eq_ok] at h ⊢
    obtain ⟨next, henter, hrest⟩ := h
    exact ⟨next, enter_congr hd henter, ih hrest⟩

theorem target_congr {path : String} (h : s.target path = .ok place) :
    s'.target path = .ok place := by
  rw [target_eq_ok_iff] at h ⊢
  obtain ⟨p, directory, part, hp, hfollow, hpart, hslash, henter, hplace⟩ := h
  exact ⟨p, directory, part, hp, follow_congr hd hfollow, hpart, by rwa [hd],
    enter_congr hd henter, by rwa [hd]⟩

end SameDirectories

/-- A path under which a file was put leads to the same place again. -/
theorem target_put {path : String} (h : s.target path = .ok place) (bytes : List UInt8) :
    (s.put place bytes).target path = .ok place :=
  target_congr (isDirectory_put h bytes) h

end FileStore

end LogicCircuit
