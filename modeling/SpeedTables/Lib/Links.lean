import SpeedTables.Lib.Chains

/-! Paths through links, and readers that follow them while one link changes. -/

namespace SpeedTables.Lib

variable {η ρ : Type*}

-----------------------------------------------------------------------------------------
-- Paths
-----------------------------------------------------------------------------------------

/-- A place that holds a pointer to an element: the head of a list, or the next pointer of an
element.
-/
inductive Link (η ρ : Type*) where
  | head (list : η)
  | next (element : ρ)
  deriving DecidableEq

/-- The last link of some elements behind a first link. -/
def Link.behind : Link η ρ → List ρ → Link η ρ
  | first, [] => first
  | _, element :: rest => Link.behind (.next element) rest

/-- All links of some elements behind a first link. -/
def Link.through (first : Link η ρ) (elements : List ρ) : List (Link η ρ) :=
  first :: elements.map .next

/-- Following the links from a first one gives some elements and then ends. -/
def LeadsTo (follow : Link η ρ → Option ρ) (first : Link η ρ) (elements : List ρ) : Prop :=
  IsChain (fun element => follow (.next element)) (follow first) elements

section Paths

variable {follow follow' : Link η ρ → Option ρ} {first : Link η ρ} {elements before after : List ρ}

@[simp]
theorem leadsTo_nil : LeadsTo follow first [] ↔ follow first = none := Iff.rfl

@[simp]
theorem leadsTo_cons {element : ρ}
    : LeadsTo follow first (element :: elements)
      ↔ follow first = some element ∧ LeadsTo follow (.next element) elements :=
  Iff.rfl

/-- Only the first element matters of where the first link points. -/
theorem LeadsTo.transfer (leads : LeadsTo follow first elements) {first' : Link η ρ}
    (start : follow' first' = follow first)
    (same : ∀ element ∈ elements, follow' (.next element) = follow (.next element))
    : LeadsTo follow' first' elements := by
  unfold LeadsTo at leads ⊢
  rw [start]
  exact leads.congr same

/-- A path depends on its own links only. -/
theorem LeadsTo.congr (leads : LeadsTo follow first elements)
    (same : ∀ link ∈ first.through elements, follow' link = follow link)
    : LeadsTo follow' first elements := by
  refine leads.transfer (same first List.mem_cons_self) fun element member => ?_
  exact same (.next element) (List.mem_cons_of_mem first (List.mem_map_of_mem member))

/-- The links of a path point to its elements. -/
theorem LeadsTo.target_mem (leads : LeadsTo follow first elements) {link : Link η ρ} {element : ρ}
    (member : link ∈ first.through elements) (points : follow link = some element)
    : element ∈ elements := by
  induction elements generalizing first with
  | nil =>
      obtain rfl : link = first := by simpa [Link.through] using member
      exact nomatch points.symm.trans leads
  | cons head rest ih =>
      obtain ⟨firstPoints, behind⟩ := leads
      rcases List.mem_cons.mp member with rfl | later
      · obtain rfl : element = head := by simpa using points.symm.trans firstPoints
        exact List.mem_cons_self
      · exact List.mem_cons_of_mem head (ih behind later)

@[simp]
theorem Link.behind_append {element : ρ}
    : Link.behind first (before ++ [element]) = .next element := by
  induction before generalizing first with
  | nil => rfl
  | cons other rest ih => exact ih

theorem Link.behind_behind
    : Link.behind (Link.behind first before) after = Link.behind first (before ++ after) := by
  induction before generalizing first with
  | nil => rfl
  | cons other rest ih => exact ih

/-- The last link is the first one or the next pointer of an element. -/
theorem Link.behind_mem : Link.behind first before ∈ first.through before := by
  induction before generalizing first with
  | nil => simp [Link.behind, Link.through]
  | cons element rest ih => exact List.mem_cons_of_mem first ih

/-- The links of the rest follow after those of the first part. -/
theorem Link.through_append
    : ∃ passed, first.through (before ++ after)
        = passed ++ (Link.behind first before).through after := by
  induction before generalizing first with
  | nil => exact ⟨[], rfl⟩
  | cons element rest ih =>
      obtain ⟨passed, split⟩ := @ih (.next element)
      exact ⟨first :: passed, congrArg (first :: ·) split⟩

/-- On a path without repetition the last link of its first part is not in the rest. -/
theorem Link.behind_ne (distinct : (first.through (before ++ after)).Nodup) {element : ρ}
    (member : element ∈ after)
    : Link.behind first before ≠ .next element := by
  obtain ⟨passed, split⟩ := @Link.through_append _ _ first before after
  rw [split] at distinct
  have apart := (List.nodup_cons.mp (List.nodup_append.mp distinct).2.1).1
  intro same
  exact apart (same ▸ List.mem_map_of_mem member)

/-- The rest of a path starts at the last link of its first part. -/
theorem LeadsTo.rest (leads : LeadsTo follow first (before ++ after))
    : LeadsTo follow (Link.behind first before) after := by
  induction before generalizing first with
  | nil => exact leads
  | cons element rest ih => exact ih leads.2

/-- A path is followed up to a link that leads elsewhere now. -/
theorem LeadsTo.splice (leads : LeadsTo follow first (before ++ elements))
    (distinct : (first.through before).Nodup)
    (same
      : ∀ link ∈ first.through before,
          link ≠ Link.behind first before → follow' link = follow link)
    (leads' : LeadsTo follow' (Link.behind first before) after)
    : LeadsTo follow' first (before ++ after) := by
  induction before generalizing first with
  | nil => exact leads'
  | cons element rest ih =>
      obtain ⟨points, behind⟩ := leads
      have different : first ≠ Link.behind first (element :: rest) := by
        intro equal
        have member : first ∈ (Link.next element).through rest := by
          rw [equal]
          exact Link.behind_mem
        exact (List.nodup_cons.mp distinct).1 member
      refine ⟨by rw [same first (by simp [Link.through]) different, points], ?_⟩
      refine ih behind (List.nodup_cons.mp distinct).2 ?_ leads'
      intro link member
      exact same link (List.mem_cons_of_mem first member)

end Paths

-----------------------------------------------------------------------------------------
-- Readers
-----------------------------------------------------------------------------------------

/-- A reader at a link that it reads next, with the elements it has visited. -/
structure LinkReader (η ρ : Type*) where
  place : Link η ρ
  visited : List ρ
  finished : Bool
  deriving DecidableEq

def LinkReader.start (first : Link η ρ) : LinkReader η ρ where
  place := first
  visited := []
  finished := false

/-- The reader loads its link, and stops at its end. -/
def LinkReader.read (follow : Link η ρ → Option ρ) (reader : LinkReader η ρ) : LinkReader η ρ :=
  if reader.finished then reader
  else match follow reader.place with
    | none => { reader with finished := true }
    | some element =>
        { place := .next element, visited := reader.visited ++ [element], finished := false }

/-- The reader has visited a first part of the elements and is on the path of the others. -/
structure LinkReader.Sees (reader : LinkReader η ρ) (follow : Link η ρ → Option ρ)
    (first : Link η ρ) (elements : List ρ) : Prop where
  place : reader.place = first.behind reader.visited
  rest
    : ∃ rest,
        elements = reader.visited ++ rest
        ∧ (reader.finished = true → rest = [])
        ∧ (reader.finished = false → LeadsTo follow reader.place rest)

/-- What a traversal visits at any time: the elements it asks for, in order, each once, and all of
them when it ends, which it does after as many loads as there are links.
-/
structure LinkReader.Visits (reader : LinkReader η ρ) (loads : Nat) (elements : List ρ) : Prop where
  distinct : elements.Nodup
  inOrder : reader.visited <+: elements
  complete : reader.finished = true → reader.visited = elements
  ends : elements.length < loads → reader.finished = true

section Readers

variable {follow follow' : Link η ρ → Option ρ} {first : Link η ρ}
  {elements before old new : List ρ} {reader : LinkReader η ρ}

theorem LinkReader.sees_start (leads : LeadsTo follow first elements)
    : (LinkReader.start first).Sees follow first elements where
  place := rfl
  rest := ⟨elements, rfl, nofun, fun _ => leads⟩

/-- What a reader sees, it has visited in order, and all of it once it is finished. -/
theorem LinkReader.Sees.visited (sees : reader.Sees follow first elements)
    : reader.visited <+: elements ∧ (reader.finished = true → reader.visited = elements) := by
  obtain ⟨rest, whole, finished, -⟩ := sees.rest
  refine ⟨⟨rest, whole.symm⟩, ?_⟩
  intro done
  simp [whole, finished done]

/-- Each load brings the reader one element further on its path. -/
theorem LinkReader.Sees.read (sees : reader.Sees follow first elements)
    : (reader.read follow).Sees follow first elements := by
  obtain ⟨rest, whole, finished, leads⟩ := sees.rest
  cases done : reader.finished with
  | true => simpa [LinkReader.read, done] using sees
  | false =>
      cases rest with
      | nil =>
          have ends : follow reader.place = none := leads done
          exact {
            place := by simpa [LinkReader.read, done, ends] using sees.place
            rest := ⟨[], by simpa [LinkReader.read, done, ends] using whole,
              by simp [LinkReader.read, done, ends], by simp [LinkReader.read, done, ends]⟩
          }
      | cons element rest =>
          obtain ⟨points, further⟩ := leads done
          have loaded : reader.read follow
              = { place := .next element, visited := reader.visited ++ [element],
                  finished := false } := by
            simp [LinkReader.read, done, points]
          rw [loaded]
          exact ⟨by simp, rest, by simp [whole], nofun, fun _ => further⟩

/-- A reader that is not finished has loaded one element more, or is finished now. -/
theorem LinkReader.read_progress
    : (reader.read follow).finished = true
      ∨ (reader.read follow).visited.length = reader.visited.length + 1 := by
  unfold LinkReader.read
  split
  · rename_i done
    exact Or.inl done
  · split
    · exact Or.inl rfl
    · exact Or.inr (by simp)

/-- Links off the path can change. -/
theorem LinkReader.Sees.congr (sees : reader.Sees follow first elements)
    (same : ∀ link ∈ first.through elements, follow' link = follow link)
    : reader.Sees follow' first elements := by
  obtain ⟨rest, whole, finished, leads⟩ := sees.rest
  refine ⟨sees.place, rest, whole, finished, fun done => (leads done).congr ?_⟩
  intro link member
  refine same link ?_
  rw [sees.place] at member
  rw [whole]
  simp only [Link.through, List.mem_cons, List.map_append, List.mem_append] at member ⊢
  rcases member with rfl | later
  · have inside := @Link.behind_mem _ _ first reader.visited
    simp only [Link.through, List.mem_cons] at inside
    exact inside.imp_right Or.inl
  · exact Or.inr (Or.inr later)

/-- When one link on the path leads elsewhere, a reader before it sees the new path and one
behind it the old path.
-/
theorem LinkReader.Sees.splice (sees : reader.Sees follow first (before ++ old))
    (distinct : (first.through (before ++ old)).Nodup)
    (same : ∀ link, link ≠ first.behind before → follow' link = follow link)
    (leads' : LeadsTo follow' (first.behind before) new)
    : reader.Sees follow' first (before ++ old) ∨ reader.Sees follow' first (before ++ new) := by
  obtain ⟨rest, whole, finished, leads⟩ := sees.rest
  cases done : reader.finished with
  | true => exact Or.inl ⟨sees.place, rest, whole, finished, by simp [done]⟩
  | false =>
      have leads := leads done
      rcases List.append_eq_append_iff.mp whole with ⟨ahead, passed, left⟩ | ⟨ahead, passed, left⟩
      · cases ahead with
        | nil =>
            -- The reader is about to load the link.
            rw [List.append_nil] at passed
            refine Or.inr ⟨sees.place, new, by rw [passed], by simp [done], fun _ => ?_⟩
            rw [sees.place, passed]
            exact leads'
        | cons element ahead =>
            refine Or.inl ⟨sees.place, rest, whole, finished, fun _ => leads.congr ?_⟩
            intro link member
            refine same link ?_
            rintro rfl
            have behind : reader.place = (Link.next element).behind ahead := by
              rw [sees.place, passed, ← Link.behind_behind]
              rfl
            obtain ⟨earlier, split⟩ :=
              @Link.through_append _ _ first before (element :: ahead ++ rest)
            obtain ⟨later, split'⟩ := @Link.through_append _ _ (.next element) ahead rest
            have links : first.through (before ++ old)
                = earlier ++ first.behind before :: (later ++ reader.place.through rest) := by
              rw [whole, passed, List.append_assoc, split, behind, ← split']
              rfl
            rw [links] at distinct
            have apart := (List.nodup_cons.mp (List.nodup_append.mp distinct).2.1).1
            exact apart (List.mem_append_right later member)
      · have behind : reader.place.behind ahead = first.behind before := by
          rw [sees.place, Link.behind_behind, passed]
        obtain ⟨earlier, split⟩ := @Link.through_append _ _ first reader.visited ahead
        have path : (reader.place.through ahead).Nodup := by
          have part : (first.through before).Nodup :=
            distinct.sublist (((List.sublist_append_left before old).map _).cons_cons first)
          rw [passed, split, ← sees.place] at part
          exact (List.nodup_append.mp part).2.1
        rw [left] at leads
        refine Or.inr ⟨sees.place, ahead ++ new, by simp [passed], by simp [done], fun _ => ?_⟩
        refine leads.splice path (fun link _ => ?_) (behind ▸ leads')
        rw [behind]
        exact same link

end Readers

end SpeedTables.Lib
