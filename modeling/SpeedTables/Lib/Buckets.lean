import SpeedTables.Lib.SkipList

/-! Ordered bucket lists: the chain of a skip list whose buckets hold equal entries. -/

namespace SpeedTables.Lib

open Std

variable {ρ κ : Type*}

-----------------------------------------------------------------------------------------
-- Ordered chains
-----------------------------------------------------------------------------------------

/-- The chain of a skip list that orders its entries by their keys: nodes ascend strictly,
and the entries of one bucket have equal keys.
-/
structure Ordered (cmp : κ → κ → Ordering) (key : ρ → κ) (nodes : List (Node ρ)) : Prop where
  ids : (nodes.map Node.id).Nodup
  linked : ∀ n ∈ nodes, 0 < n.height
  nonempty : ∀ n ∈ nodes, n.bucket ≠ []
  distinct : ∀ n ∈ nodes, n.bucket.Nodup
  equal : ∀ n ∈ nodes, ∀ a ∈ n.bucket, ∀ b ∈ n.bucket, cmp (key a) (key b) = .eq
  ascending :
    nodes.Pairwise (fun l r => ∀ a ∈ l.bucket, ∀ b ∈ r.bucket, cmp (key a) (key b) = .lt)

/-- Whether a bucket lies before the position of a key, judged by its first entry. -/
def liesBefore (cmp : κ → κ → Ordering) (key : ρ → κ) (target : κ) : List ρ → Bool
  | [] => false
  | first :: _ => cmp target (key first) == .gt

/-- All entries of a chain, in its order. -/
def entries (nodes : List (Node ρ)) : List ρ :=
  nodes.flatMap Node.bucket

/-- The entry stands in the bucket of the node with the given number. -/
def Holds (nodes : List (Node ρ)) (id : Nat) (entry : ρ) : Prop :=
  ∃ n ∈ nodes, n.id = id ∧ entry ∈ n.bucket

@[simp]
theorem mem_entries {nodes : List (Node ρ)} {entry : ρ}
    : entry ∈ entries nodes ↔ ∃ n ∈ nodes, entry ∈ n.bucket := by
  simp [entries]

variable {cmp : κ → κ → Ordering} {key : ρ → κ} {nodes : List (Node ρ)}

/-- Ordering depends on how the keys of the entries compare only. -/
theorem Ordered.congr {other : ρ → κ} (ordered : Ordered cmp key nodes)
    (same : ∀ a ∈ entries nodes, ∀ b ∈ entries nodes,
      cmp (other a) (other b) = cmp (key a) (key b))
    : Ordered cmp other nodes := by
  have keys : ∀ n ∈ nodes, ∀ m ∈ nodes, ∀ a ∈ n.bucket, ∀ b ∈ m.bucket,
      cmp (other a) (other b) = cmp (key a) (key b) := by
    intro n left m right a inside b alike
    exact same a (mem_entries.mpr ⟨n, left, inside⟩) b (mem_entries.mpr ⟨m, right, alike⟩)
  refine { ordered with equal := ?_, ascending := ?_ }
  · intro n member a inside b alike
    rw [keys n member n member a inside b alike]
    exact ordered.equal n member a inside b alike
  · refine ordered.ascending.imp_of_mem ?_
    intro l r left right less a inside b alike
    rw [keys l left r right a inside b alike]
    exact less a inside b alike

/-- A part of an ordered chain is ordered. -/
theorem Ordered.sublist {part : List (Node ρ)} (ordered : Ordered cmp key nodes)
    (sub : part.Sublist nodes)
    : Ordered cmp key part where
  ids := ordered.ids.sublist (sub.map Node.id)
  linked := fun n member => ordered.linked n (sub.subset member)
  nonempty := fun n member => ordered.nonempty n (sub.subset member)
  distinct := fun n member => ordered.distinct n (sub.subset member)
  equal := fun n member => ordered.equal n (sub.subset member)
  ascending := ordered.ascending.sublist sub

/-- The empty chain is ordered. -/
theorem Ordered.nil : Ordered cmp key [] where
  ids := by simp
  linked := by simp
  nonempty := by simp
  distinct := by simp
  equal := by simp
  ascending := by simp

/-- Two nodes with one number are one node. -/
theorem Ordered.id_injective (ordered : Ordered cmp key nodes) {n m : Node ρ}
    (left : n ∈ nodes) (right : m ∈ nodes) (same : n.id = m.id)
    : n = m :=
  List.inj_on_of_nodup_map ordered.ids left right same

-----------------------------------------------------------------------------------------
-- Positions
-----------------------------------------------------------------------------------------

section Positions

variable [TransCmp cmp]

/-- All entries of a bucket compare with a key as the first one does. -/
theorem Ordered.compare_bucket (ordered : Ordered cmp key nodes) {n : Node ρ} (member : n ∈ nodes)
    {target : κ} {a b : ρ} (left : a ∈ n.bucket) (right : b ∈ n.bucket)
    : cmp target (key a) = cmp target (key b) :=
  TransCmp.congr_right (ordered.equal n member a left b right)

/-- A bucket is before a position when some entry of it is less than the key. -/
theorem Ordered.liesBefore_iff (ordered : Ordered cmp key nodes) {n : Node ρ} (member : n ∈ nodes)
    {target : κ} {a : ρ} (inside : a ∈ n.bucket)
    : liesBefore cmp key target n.bucket = true ↔ cmp target (key a) = .gt := by
  cases shape : n.bucket with
  | nil => simp [shape] at inside
  | cons first rest =>
      have same := @Ordered.compare_bucket _ _ _ _ _ _ ordered n member target first a
        (by simp [shape]) inside
      simp [liesBefore, same]

/-- The nodes before a position form a prefix. -/
theorem Ordered.lowerPrefix (ordered : Ordered cmp key nodes) (target : κ)
    : LowerPrefix (liesBefore cmp key target) nodes := by
  refine ordered.ascending.imp_of_mem ?_
  intro l r left right less passed
  obtain ⟨a, inside⟩ := List.exists_mem_of_ne_nil _ (ordered.nonempty l left)
  obtain ⟨b, alike⟩ := List.exists_mem_of_ne_nil _ (ordered.nonempty r right)
  have greater := (ordered.liesBefore_iff right alike).mp passed
  exact (ordered.liesBefore_iff left inside).mpr
    (TransCmp.gt_trans greater (OrientedCmp.gt_of_lt (less a inside b alike)))

/-- Behind a node that is not before the position of a key all entries are greater. -/
theorem Ordered.less_behind {node : Node ρ} {rest : List (Node ρ)}
    (ordered : Ordered cmp key (node :: rest)) {target : κ}
    (stays : ∀ a ∈ node.bucket, cmp target (key a) ≠ .gt)
    : ∀ n ∈ rest, ∀ a ∈ n.bucket, cmp target (key a) = .lt := by
  intro n member a inside
  obtain ⟨b, alike⟩ := List.exists_mem_of_ne_nil _ (ordered.nonempty node (by simp))
  have less := (List.pairwise_cons.mp ordered.ascending).1 n member b alike a inside
  have notGreater := stays b alike
  have atMost : (cmp target (key b)).isLE = true := by
    cases value : cmp target (key b) <;> simp_all
  exact TransCmp.lt_of_isLE_of_lt atMost less

/-- The chain splits at the position of a key: everything before it is less, the first node
after it is not, and the others are greater.
-/
theorem Ordered.split (ordered : Ordered cmp key nodes) (target : κ)
    : ∃ lows highs,
        nodes = lows ++ highs
        ∧ highs = nodes.dropWhile (fun n => liesBefore cmp key target n.bucket)
        ∧ (∀ n ∈ lows, ∀ a ∈ n.bucket, cmp target (key a) = .gt)
        ∧ (∀ n ∈ highs.head?, ∀ a ∈ n.bucket, cmp target (key a) ≠ .gt)
        ∧ (∀ n ∈ highs.tail, ∀ a ∈ n.bucket, cmp target (key a) = .lt) := by
  have notBefore : ∀ n ∈ (nodes.dropWhile
      (fun n => liesBefore cmp key target n.bucket)).head?, ∀ a ∈ n.bucket,
      cmp target (key a) ≠ .gt := by
    intro n first a inside greater
    have member : n ∈ nodes := (List.dropWhile_sublist _).subset (List.mem_of_mem_head? first)
    have stays := List.head?_dropWhile_not (fun n => liesBefore cmp key target n.bucket) nodes
    rw [Option.mem_def.mp first] at stays
    simp [(ordered.liesBefore_iff member inside).mpr greater] at stays
  refine ⟨nodes.takeWhile (fun n => liesBefore cmp key target n.bucket), _,
    List.takeWhile_append_dropWhile.symm, rfl, ?_, notBefore, ?_⟩
  · intro n member a inside
    have passed := List.mem_takeWhile_imp member
    exact (ordered.liesBefore_iff ((List.takeWhile_prefix _).subset member) inside).mp passed
  · have rest := ordered.sublist
      (List.dropWhile_sublist (fun n => liesBefore cmp key target n.bucket))
    cases shape : nodes.dropWhile (fun n => liesBefore cmp key target n.bucket) with
    | nil => simp
    | cons node others =>
        rw [shape] at rest notBefore
        exact rest.less_behind (notBefore node rfl)

end Positions

-----------------------------------------------------------------------------------------
-- Changing a chain
-----------------------------------------------------------------------------------------

/-- The part of a chain before a suffix of it. -/
@[simp]
theorem chainBefore_append {lows highs : List (Node ρ)}
    : chainBefore (lows ++ highs) highs = lows := by
  simp [chainBefore]

/-- Changing the bucket of a node leaves the other nodes as they are. -/
theorem setBucket_of_ne {id : Nat} {bucket : List ρ}
    (absent : ∀ n ∈ nodes, n.id ≠ id)
    : setBucket nodes id bucket = nodes := by
  have same : ∀ n ∈ nodes, (if n.id = id then { n with bucket := bucket } else n) = n :=
    fun n member => if_neg (absent n member)
  rw [setBucket, List.map_congr_left same, List.map_id']

/-- The entries after a bucket is changed are old ones or those of the new bucket. -/
theorem mem_entries_setBucket {id : Nat} {bucket : List ρ} {entry : ρ}
    (inside : entry ∈ entries (setBucket nodes id bucket))
    : entry ∈ entries nodes ∨ entry ∈ bucket := by
  obtain ⟨n, member, here⟩ := mem_entries.mp inside
  obtain ⟨old, known, rfl⟩ := List.mem_map.mp member
  split at here
  · exact .inr here
  · exact .inl (mem_entries.mpr ⟨old, known, here⟩)

/-- Changing the bucket of one node of an ordered chain. -/
theorem setBucket_split {lows highs : List (Node ρ)} {node : Node ρ} {bucket : List ρ}
    (ordered : Ordered cmp key (lows ++ node :: highs))
    : setBucket (lows ++ node :: highs) node.id bucket =
        lows ++ { node with bucket := bucket } :: highs := by
  have ids := ordered.ids
  simp only [List.map_append, List.map_cons] at ids
  have apart := List.nodup_append.mp ids
  have before : setBucket lows node.id bucket = lows := by
    refine setBucket_of_ne ?_
    intro n member same
    exact apart.2.2 n.id (List.mem_map_of_mem member) node.id (by simp) same
  have after : setBucket highs node.id bucket = highs := by
    refine setBucket_of_ne ?_
    intro n member same
    exact (List.nodup_cons.mp apart.2.1).1 (same ▸ List.mem_map_of_mem member)
  conv_rhs => rw [← before, ← after]
  simp [setBucket]

/-- Replacing a bucket by a part of it keeps the chain ordered. -/
theorem Ordered.shrink {lows highs : List (Node ρ)} {node : Node ρ} {bucket : List ρ}
    (ordered : Ordered cmp key (lows ++ node :: highs))
    (part : bucket.Sublist node.bucket) (kept : bucket ≠ [])
    : Ordered cmp key (lows ++ { node with bucket := bucket } :: highs) := by
  have inNodes : ∀ n ∈ lows ++ { node with bucket := bucket } :: highs,
      ∃ m ∈ lows ++ node :: highs, n.height = m.height ∧ n.bucket.Sublist m.bucket
        ∧ n.bucket ≠ [] := by
    intro n member
    rcases List.mem_append.mp member with low | high
    · exact ⟨n, by simp [low], rfl, .refl _, ordered.nonempty n (by simp [low])⟩
    · rcases List.mem_cons.mp high with rfl | high
      · exact ⟨node, by simp, rfl, part, kept⟩
      · exact ⟨n, by simp [high], rfl, .refl _, ordered.nonempty n (by simp [high])⟩
  refine {
    ids := by simpa using ordered.ids
    linked := ?_, nonempty := ?_, distinct := ?_, equal := ?_, ascending := ?_ }
  · intro n member
    obtain ⟨m, inside, height, -⟩ := inNodes n member
    rw [height]
    exact ordered.linked m inside
  · intro n member
    exact (inNodes n member).choose_spec.2.2.2
  · intro n member
    obtain ⟨m, inside, -, sub, -⟩ := inNodes n member
    exact (ordered.distinct m inside).sublist sub
  · intro n member a left b right
    obtain ⟨m, inside, -, sub, -⟩ := inNodes n member
    exact ordered.equal m inside a (sub.subset left) b (sub.subset right)
  · have ascending := ordered.ascending
    simp only [List.pairwise_append, List.pairwise_cons, List.mem_cons] at ascending ⊢
    obtain ⟨before, ⟨first, after⟩, across⟩ := ascending
    refine ⟨before, ⟨?_, after⟩, ?_⟩
    · intro r right a left b inside
      exact first r right a (part.subset left) b inside
    · intro l left r right a inside b alike
      rcases right with rfl | right
      · exact across l left node (.inl rfl) a inside b (part.subset alike)
      · exact across l left r (.inr right) a inside b alike

/-- Inserting a node between the lesser and the greater ones keeps the chain ordered. -/
theorem Ordered.insertNode [TransCmp cmp] {lows highs : List (Node ρ)} {id height : Nat} {entry : ρ}
    (ordered : Ordered cmp key (lows ++ highs))
    (fresh : ∀ n ∈ lows ++ highs, n.id ≠ id) (tall : 0 < height)
    (above : ∀ n ∈ lows, ∀ a ∈ n.bucket, cmp (key entry) (key a) = .gt)
    (below : ∀ n ∈ highs, ∀ a ∈ n.bucket, cmp (key entry) (key a) = .lt)
    : Ordered cmp key (lows ++ { id := id, height := height, bucket := [entry] } :: highs) := by
  have old : ∀ n, n ∈ lows ∨ n ∈ highs → n ∈ lows ++ highs := fun n => List.mem_append.mpr
  refine {
    ids := ?_, linked := ?_, nonempty := ?_, distinct := ?_, equal := ?_, ascending := ?_ }
  · have perm : ((lows ++ { id := id, height := height, bucket := [entry] } :: highs).map
        Node.id).Perm (id :: (lows ++ highs).map Node.id) := by
      simp
    refine perm.nodup_iff.mpr (List.nodup_cons.mpr ⟨?_, ordered.ids⟩)
    intro member
    obtain ⟨n, inside, same⟩ := List.mem_map.mp member
    exact fresh n inside same
  · intro n member
    simp only [List.mem_append, List.mem_cons] at member
    rcases member with low | rfl | high
    · exact ordered.linked n (old n (.inl low))
    · exact tall
    · exact ordered.linked n (old n (.inr high))
  · intro n member
    simp only [List.mem_append, List.mem_cons] at member
    rcases member with low | rfl | high
    · exact ordered.nonempty n (old n (.inl low))
    · simp
    · exact ordered.nonempty n (old n (.inr high))
  · intro n member
    simp only [List.mem_append, List.mem_cons] at member
    rcases member with low | rfl | high
    · exact ordered.distinct n (old n (.inl low))
    · simp
    · exact ordered.distinct n (old n (.inr high))
  · intro n member a left b right
    simp only [List.mem_append, List.mem_cons] at member
    rcases member with low | rfl | high
    · exact ordered.equal n (old n (.inl low)) a left b right
    · obtain rfl : a = entry := by simpa using left
      obtain rfl : b = a := by simpa using right
      exact ReflCmp.compare_self
    · exact ordered.equal n (old n (.inr high)) a left b right
  · have ascending := ordered.ascending
    simp only [List.pairwise_append, List.pairwise_cons, List.mem_cons] at ascending ⊢
    obtain ⟨before, after, across⟩ := ascending
    refine ⟨before, ⟨?_, after⟩, ?_⟩
    · intro r right a left b inside
      obtain rfl : a = entry := by simpa using left
      exact below r right b inside
    · intro l left r right a inside b alike
      rcases right with rfl | right
      · obtain rfl : b = entry := by simpa using alike
        exact OrientedCmp.lt_of_gt (above l left a inside)
      · exact across l left r right a inside b alike

/-- Adding an entry with the key of a bucket to it keeps the chain ordered. -/
theorem Ordered.addToBucket [TransCmp cmp] {lows highs : List (Node ρ)} {node : Node ρ} {entry : ρ}
    (ordered : Ordered cmp key (lows ++ node :: highs)) (fresh : entry ∉ node.bucket)
    (same : ∀ a ∈ node.bucket, cmp (key entry) (key a) = .eq)
    : Ordered cmp key (lows ++ { node with bucket := entry :: node.bucket } :: highs) := by
  obtain ⟨first, inside⟩ := List.exists_mem_of_ne_nil _ (ordered.nonempty node (by simp))
  have asFirst : ∀ {c : ρ}, cmp (key entry) (key c) = cmp (key first) (key c) :=
    TransCmp.congr_left (same first inside)
  have asFirst' : ∀ {c : ρ}, cmp (key c) (key entry) = cmp (key c) (key first) :=
    TransCmp.congr_right (same first inside)
  have old : ∀ n ∈ lows ++ { node with bucket := entry :: node.bucket } :: highs,
      n ∈ lows ++ node :: highs ∨ n = { node with bucket := entry :: node.bucket } := by
    intro n member
    simp only [List.mem_append, List.mem_cons] at member ⊢
    rcases member with low | rfl | high
    · exact .inl (.inl low)
    · exact .inr rfl
    · exact .inl (.inr (.inr high))
  refine {
    ids := by simpa using ordered.ids
    linked := ?_, nonempty := ?_, distinct := ?_, equal := ?_, ascending := ?_ }
  · intro n member
    rcases old n member with member | rfl
    · exact ordered.linked n member
    · exact ordered.linked node (by simp)
  · intro n member
    rcases old n member with member | rfl
    · exact ordered.nonempty n member
    · simp
  · intro n member
    rcases old n member with member | rfl
    · exact ordered.distinct n member
    · exact List.nodup_cons.mpr ⟨fresh, ordered.distinct node (by simp)⟩
  · intro n member a left b right
    rcases old n member with member | rfl
    · exact ordered.equal n member a left b right
    · rcases List.mem_cons.mp left with rfl | former
      · rcases List.mem_cons.mp right with rfl | other
        · exact ReflCmp.compare_self
        · exact same b other
      · rcases List.mem_cons.mp right with rfl | other
        · exact OrientedCmp.eq_symm (same a former)
        · exact ordered.equal node (by simp) a former b other
  · have ascending := ordered.ascending
    simp only [List.pairwise_append, List.pairwise_cons, List.mem_cons] at ascending ⊢
    obtain ⟨before, ⟨behind, after⟩, across⟩ := ascending
    refine ⟨before, ⟨?_, after⟩, ?_⟩
    · intro r right a left b alike
      rcases left with rfl | left
      · rw [asFirst]
        exact behind r right first inside b alike
      · exact behind r right a left b alike
    · intro l left r right a member b alike
      rcases right with rfl | right
      · rcases List.mem_cons.mp alike with rfl | alike
        · rw [asFirst']
          exact across l left node (.inl rfl) a member first inside
        · exact across l left node (.inl rfl) a member b alike
      · exact across l left r (.inr right) a member b alike

-----------------------------------------------------------------------------------------
-- Entries
-----------------------------------------------------------------------------------------

/-- Entries with equal keys stand in one node. -/
theorem Ordered.node_of_equal [TransCmp cmp] (ordered : Ordered cmp key nodes) {n m : Node ρ}
    (left : n ∈ nodes) (right : m ∈ nodes) {a b : ρ} (inside : a ∈ n.bucket) (alike : b ∈ m.bucket)
    (same : cmp (key a) (key b) = .eq)
    : n = m := by
  have inOrder : nodes.Pairwise fun n m =>
      ∀ a ∈ n.bucket, ∀ b ∈ m.bucket, cmp (key a) (key b) = .eq → n = m := by
    refine ordered.ascending.imp ?_
    intro l r less a left b right same
    simp [less a left b right] at same
  have swapped : nodes.Pairwise fun n m =>
      ∀ a ∈ m.bucket, ∀ b ∈ n.bucket, cmp (key a) (key b) = .eq → m = n := by
    refine ordered.ascending.imp ?_
    intro l r less a left b right same
    simp [OrientedCmp.gt_of_lt (less b right a left)] at same
  exact inOrder.forall_of_forall_of_flip (fun _ _ _ _ _ _ _ => rfl) swapped left right a inside b
    alike same

/-- An entry stands in one node only. -/
theorem Ordered.node_of_entry [TransCmp cmp] (ordered : Ordered cmp key nodes) {n m : Node ρ}
    {a : ρ} (left : n ∈ nodes) (right : m ∈ nodes) (inside : a ∈ n.bucket) (alike : a ∈ m.bucket)
    : n = m :=
  ordered.node_of_equal left right inside alike ReflCmp.compare_self

/-- No entry occurs twice in an ordered chain. -/
theorem Ordered.entries_nodup [TransCmp cmp] (ordered : Ordered cmp key nodes)
    : (entries nodes).Nodup := by
  refine List.nodup_flatMap.mpr ⟨ordered.distinct, ordered.ascending.imp ?_⟩
  intro l r less a left right
  have self : cmp (key a) (key a) = .eq := ReflCmp.compare_self
  simp [less a left a right] at self

end SpeedTables.Lib
