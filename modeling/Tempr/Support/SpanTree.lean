import Mathlib.Data.List.Basic
import Mathlib.Data.List.Perm.Basic

/-!
# Trees over a text

Trees whose nodes have a kind and span a range of a text: pruned traversals, the
order of siblings, and trees moved along their text. In an ordered tree siblings
do not overlap and children lie within their parent, so that the nodes over one
position form a path.
-/

namespace Tempr.Support

/-- A tree with kinds in `K`. -/
inductive SpanTree (K : Type*)
  | node (kind : K) (start stop : ℕ) (children : List (SpanTree K))

namespace SpanTree

variable {K : Type*}

/-- A node without children. -/
def leaf (kind : K) (start stop : ℕ) : SpanTree K :=
  node kind start stop []

def kind : SpanTree K → K
  | node kind _ _ _ => kind

def start : SpanTree K → ℕ
  | node _ start _ _ => start

def stop : SpanTree K → ℕ
  | node _ _ stop _ => stop

def children : SpanTree K → List (SpanTree K)
  | node _ _ _ children => children

mutual

/-- How many nodes a tree has. -/
def size : SpanTree K → ℕ
  | node _ _ _ children => sizeAll children + 1

def sizeAll : List (SpanTree K) → ℕ
  | [] => 0
  | n :: ns => size n + sizeAll ns

end

theorem size_le_sizeAll {n : SpanTree K} {ns : List (SpanTree K)}
    (h : n ∈ ns) : size n ≤ sizeAll ns := by
  induction ns with
  | nil => cases h
  | cons m ns ih =>
      rw [sizeAll]
      rcases List.mem_cons.1 h with rfl | h
      · exact Nat.le_add_right _ _
      · exact Nat.le_trans (ih h) (Nat.le_add_left _ _)

theorem size_lt_of_mem_children {n c : SpanTree K} (h : c ∈ n.children) :
    size c < size n := by
  cases n with
  | node kind start stop children =>
      exact Nat.lt_succ_of_le (size_le_sizeAll h)

/-- Induction from the children to their parent. -/
theorem induction_children {P : SpanTree K → Prop}
    (h : ∀ n, (∀ c ∈ n.children, P c) → P n) (n : SpanTree K) : P n :=
  h n fun c _ => induction_children h c
termination_by size n
decreasing_by exact size_lt_of_mem_children ‹_›

/-! ## Traversals -/

section Visit

variable {α : Type*}

mutual

/-- What `f` gives for the nodes, parents first and from left to right. `f` sees
the siblings of a node, and says whether to go on below it. -/
def visitIn (f : List (SpanTree K) → SpanTree K → List α × Bool)
    (siblings : List (SpanTree K)) : SpanTree K → List α
  | node kind start stop children =>
      (f siblings (node kind start stop children)).1 ++
        if (f siblings (node kind start stop children)).2 then
          visitAll f children children
        else []

def visitAll (f : List (SpanTree K) → SpanTree K → List α × Bool)
    (siblings : List (SpanTree K)) : List (SpanTree K) → List α
  | [] => []
  | n :: ns => visitIn f siblings n ++ visitAll f siblings ns

end

theorem visitAll_eq (f : List (SpanTree K) → SpanTree K → List α × Bool)
    (siblings ns : List (SpanTree K)) :
    visitAll f siblings ns = ns.flatMap (visitIn f siblings) := by
  induction ns with
  | nil => rfl
  | cons n ns ih => simp [visitAll, ih]

theorem visitIn_eq (f : List (SpanTree K) → SpanTree K → List α × Bool)
    (siblings : List (SpanTree K)) (n : SpanTree K) :
    visitIn f siblings n = (f siblings n).1 ++
      if (f siblings n).2 then n.children.flatMap (visitIn f n.children)
      else [] := by
  cases n
  rw [visitIn, visitAll_eq]
  rfl

mutual

/-- As `visitIn`, from right to left and without siblings: the nodes in the order
in which a stack of them is emptied. -/
def visitStack (f : SpanTree K → List α × Bool) : SpanTree K → List α
  | node kind start stop children =>
      (f (node kind start stop children)).1 ++
        if (f (node kind start stop children)).2 then
          visitStackAll f children
        else []

def visitStackAll (f : SpanTree K → List α × Bool) :
    List (SpanTree K) → List α
  | [] => []
  | n :: ns => visitStackAll f ns ++ visitStack f n

end

theorem visitStackAll_eq (f : SpanTree K → List α × Bool)
    (ns : List (SpanTree K)) :
    visitStackAll f ns = ns.reverse.flatMap (visitStack f) := by
  induction ns with
  | nil => rfl
  | cons n ns ih => simp [visitStackAll, ih]

theorem visitStack_eq (f : SpanTree K → List α × Bool) (n : SpanTree K) :
    visitStack f n = (f n).1 ++
      if (f n).2 then n.children.reverse.flatMap (visitStack f) else [] := by
  cases n
  rw [visitStack, visitStackAll_eq]
  rfl

theorem mem_visitStack_iff {f : SpanTree K → List α × Bool} {n : SpanTree K}
    {a : α} :
    a ∈ visitStack f n ↔ a ∈ (f n).1 ∨
      (f n).2 = true ∧ ∃ c ∈ n.children, a ∈ visitStack f c := by
  rw [visitStack_eq]
  split <;> simp_all

theorem mem_visitIn_iff {f : List (SpanTree K) → SpanTree K → List α × Bool}
    {siblings : List (SpanTree K)} {n : SpanTree K} {a : α} :
    a ∈ visitIn f siblings n ↔ a ∈ (f siblings n).1 ∨
      (f siblings n).2 = true ∧ ∃ c ∈ n.children,
        a ∈ visitIn f n.children c := by
  rw [visitIn_eq]
  split <;> simp_all

variable {β : Type*}

/-- What one visit meets, another one that goes as far meets too. -/
theorem exists_mem_visitIn
    {f : List (SpanTree K) → SpanTree K → List α × Bool}
    {g : List (SpanTree K) → SpanTree K → List β × Bool} {a : α}
    {R : β → Prop}
    (hmeet : ∀ siblings n, a ∈ (f siblings n).1 →
      ∃ b ∈ (g siblings n).1, R b)
    (hgo : ∀ siblings n, (f siblings n).2 = true → (g siblings n).2 = true)
    {siblings : List (SpanTree K)} {n : SpanTree K}
    (h : a ∈ visitIn f siblings n) : ∃ b ∈ visitIn g siblings n, R b := by
  induction n using induction_children generalizing siblings with
  | h n ih =>
      rcases mem_visitIn_iff.1 h with hself | ⟨hon, c, hc, hbelow⟩
      · obtain ⟨b, hb, hR⟩ := hmeet siblings n hself
        exact ⟨b, mem_visitIn_iff.2 (.inl hb), hR⟩
      · obtain ⟨b, hb, hR⟩ := ih c hc hbelow
        exact ⟨b, mem_visitIn_iff.2 (.inr ⟨hgo siblings n hon, c, hc, hb⟩),
          hR⟩

theorem exists_mem_visitStack {f : SpanTree K → List α × Bool}
    {g : SpanTree K → List β × Bool} {a : α} {R : β → Prop}
    (hmeet : ∀ n, a ∈ (f n).1 → ∃ b ∈ (g n).1, R b)
    (hgo : ∀ n, (f n).2 = true → (g n).2 = true) {n : SpanTree K}
    (h : a ∈ visitStack f n) : ∃ b ∈ visitStack g n, R b := by
  induction n using induction_children with
  | h n ih =>
      rcases mem_visitStack_iff.1 h with hself | ⟨hon, c, hc, hbelow⟩
      · obtain ⟨b, hb, hR⟩ := hmeet n hself
        exact ⟨b, mem_visitStack_iff.2 (.inl hb), hR⟩
      · obtain ⟨b, hb, hR⟩ := ih c hc hbelow
        exact ⟨b, mem_visitStack_iff.2 (.inr ⟨hgo n hon, c, hc, hb⟩), hR⟩

end Visit

mutual

/-- All nodes of a tree. -/
def subtrees : SpanTree K → List (SpanTree K)
  | node kind start stop children =>
      node kind start stop children :: subtreesAll children

def subtreesAll : List (SpanTree K) → List (SpanTree K)
  | [] => []
  | n :: ns => subtrees n ++ subtreesAll ns

end

theorem subtreesAll_eq (ns : List (SpanTree K)) :
    subtreesAll ns = ns.flatMap subtrees := by
  induction ns with
  | nil => rfl
  | cons n ns ih => simp [subtreesAll, ih]

theorem subtrees_eq (n : SpanTree K) :
    n.subtrees = n :: n.children.flatMap subtrees := by
  cases n
  rw [subtrees, subtreesAll_eq]
  rfl

theorem mem_subtrees_iff {n m : SpanTree K} :
    m ∈ n.subtrees ↔ m = n ∨ ∃ c ∈ n.children, m ∈ c.subtrees := by
  rw [subtrees_eq, List.mem_cons, List.mem_flatMap]

theorem self_mem_subtrees (n : SpanTree K) : n ∈ n.subtrees :=
  mem_subtrees_iff.2 (.inl rfl)

theorem mem_subtrees_of_child {n c m : SpanTree K} (hc : c ∈ n.children)
    (hm : m ∈ c.subtrees) : m ∈ n.subtrees :=
  mem_subtrees_iff.2 (.inr ⟨c, hc, hm⟩)

theorem mem_subtrees_trans {n m k : SpanTree K} (hm : m ∈ n.subtrees)
    (hk : k ∈ m.subtrees) : k ∈ n.subtrees := by
  induction n using induction_children with
  | h n ih =>
      rcases mem_subtrees_iff.1 hm with rfl | ⟨c, hc, hm⟩
      · exact hk
      · exact mem_subtrees_of_child hc (ih c hc hm)

theorem size_le_of_mem_subtrees {n m : SpanTree K} (h : m ∈ n.subtrees) :
    size m ≤ size n := by
  induction n using induction_children with
  | h n ih =>
      rcases mem_subtrees_iff.1 h with rfl | ⟨c, hc, hm⟩
      · exact Nat.le_refl _
      · exact Nat.le_trans (ih c hc hm)
          (Nat.le_of_lt (size_lt_of_mem_children hc))

/-! ### Proper descendants -/

/-- The nodes below a node. -/
def descendants (n : SpanTree K) : List (SpanTree K) :=
  n.children.flatMap subtrees

theorem mem_descendants_iff {n m : SpanTree K} :
    m ∈ n.descendants ↔ ∃ c ∈ n.children, m ∈ c.subtrees :=
  List.mem_flatMap

theorem mem_descendants_of_child {n c : SpanTree K} (hc : c ∈ n.children) :
    c ∈ n.descendants :=
  mem_descendants_iff.2 ⟨c, hc, self_mem_subtrees c⟩

theorem subtrees_eq_cons_descendants (n : SpanTree K) :
    n.subtrees = n :: n.descendants :=
  subtrees_eq n

theorem mem_subtrees_of_mem_descendants {n m : SpanTree K}
    (h : m ∈ n.descendants) : m ∈ n.subtrees := by
  rw [subtrees_eq_cons_descendants]
  exact List.mem_cons_of_mem n h

theorem mem_descendants_of_mem_subtrees {n m k : SpanTree K}
    (hm : m ∈ n.descendants) (hk : k ∈ m.subtrees) : k ∈ n.descendants := by
  obtain ⟨c, hc, hm⟩ := mem_descendants_iff.1 hm
  exact mem_descendants_iff.2 ⟨c, hc, mem_subtrees_trans hm hk⟩

theorem size_lt_of_mem_descendants {n m : SpanTree K}
    (h : m ∈ n.descendants) : size m < size n := by
  obtain ⟨c, hc, hm⟩ := mem_descendants_iff.1 h
  exact Nat.lt_of_le_of_lt (size_le_of_mem_subtrees hm)
    (size_lt_of_mem_children hc)

/-- Induction from all nodes below to a node. -/
theorem induction_descendants {P : SpanTree K → Prop}
    (h : ∀ n, (∀ m ∈ n.descendants, P m) → P n) (n : SpanTree K) : P n :=
  h n fun m _ => induction_descendants h m
termination_by size n
decreasing_by exact size_lt_of_mem_descendants ‹_›

/-! ### Topmost nodes -/

section Topmost

variable {p skip : K → Bool}

mutual

/-- The topmost nodes of a kind in `p`, from left to right, and none below a node
of a kind in `skip`. -/
def topmost (p skip : K → Bool) : SpanTree K → List (SpanTree K)
  | node kind start stop children =>
      if p kind then [node kind start stop children]
      else if skip kind then []
      else topmostAll p skip children

def topmostAll (p skip : K → Bool) : List (SpanTree K) → List (SpanTree K)
  | [] => []
  | n :: ns => topmost p skip n ++ topmostAll p skip ns

end

theorem topmostAll_eq (p skip : K → Bool) (ns : List (SpanTree K)) :
    topmostAll p skip ns = ns.flatMap (topmost p skip) := by
  induction ns with
  | nil => rfl
  | cons n ns ih => simp [topmostAll, ih]

theorem topmost_eq (p skip : K → Bool) (n : SpanTree K) :
    n.topmost p skip = if p n.kind then [n]
      else if skip n.kind then []
      else n.children.flatMap (topmost p skip) := by
  cases n
  rw [topmost, topmostAll_eq]
  rfl

theorem mem_topmost_iff {n m : SpanTree K} :
    m ∈ n.topmost p skip ↔ (p n.kind = true ∧ m = n) ∨
      (p n.kind = false ∧ skip n.kind = false ∧
        ∃ c ∈ n.children, m ∈ c.topmost p skip) := by
  rw [topmost_eq]
  split
  · simp_all
  · split <;> simp_all

theorem mem_subtrees_of_mem_topmost {n m : SpanTree K}
    (h : m ∈ n.topmost p skip) : m ∈ n.subtrees := by
  induction n using induction_children with
  | h n ih =>
      rcases mem_topmost_iff.1 h with ⟨-, rfl⟩ | ⟨-, -, c, hc, hm⟩
      · exact self_mem_subtrees m
      · exact mem_subtrees_of_child hc (ih c hc hm)

end Topmost

/-! ## Ordered trees -/

/-- Is the byte in the span of the node? -/
def Covers (n : SpanTree K) (byte : ℕ) : Prop :=
  n.start ≤ byte ∧ byte < n.stop

/-- The span of `m` is within that of `n`. -/
def Within (m n : SpanTree K) : Prop :=
  n.start ≤ m.start ∧ m.stop ≤ n.stop

theorem Within.refl (n : SpanTree K) : Within n n :=
  ⟨Nat.le_refl _, Nat.le_refl _⟩

theorem Within.trans {n m k : SpanTree K} (h : Within n m) (h' : Within m k) :
    Within n k :=
  ⟨Nat.le_trans h'.1 h.1, Nat.le_trans h.2 h'.2⟩

theorem Covers.mono {n m : SpanTree K} {byte : ℕ} (h : Covers m byte)
    (hwithin : Within m n) : Covers n byte :=
  ⟨Nat.le_trans hwithin.1 h.1, Nat.lt_of_lt_of_le h.2 hwithin.2⟩

/-- A node spans its children, which follow each other. -/
structure OrderedAt (n : SpanTree K) : Prop where
  start_le_stop : n.start ≤ n.stop
  within : ∀ c ∈ n.children, Within c n
  siblings : n.children.Pairwise fun a b => a.stop ≤ b.start

/-- All nodes span their children in order. -/
def Ordered (n : SpanTree K) : Prop :=
  ∀ m ∈ n.subtrees, OrderedAt m

instance (m n : SpanTree K) : Decidable (Within m n) :=
  inferInstanceAs (Decidable (_ ∧ _))

instance (n : SpanTree K) : Decidable (OrderedAt n) :=
  decidable_of_iff (n.start ≤ n.stop ∧ (∀ c ∈ n.children, Within c n) ∧
      n.children.Pairwise fun a b => a.stop ≤ b.start)
    ⟨fun h => ⟨h.1, h.2.1, h.2.2⟩, fun h => ⟨h.1, h.2, h.3⟩⟩

instance (n : SpanTree K) : Decidable (Ordered n) :=
  inferInstanceAs (Decidable (∀ m ∈ _, OrderedAt m))

theorem Ordered.of_mem_subtrees {n m : SpanTree K} (h : n.Ordered)
    (hm : m ∈ n.subtrees) : m.Ordered := fun k hk =>
  h k (mem_subtrees_trans hm hk)

theorem Ordered.of_mem_children {n c : SpanTree K} (h : n.Ordered)
    (hc : c ∈ n.children) : c.Ordered :=
  h.of_mem_subtrees (mem_subtrees_of_child hc (self_mem_subtrees c))

theorem Ordered.within {n m : SpanTree K} (h : n.Ordered)
    (hm : m ∈ n.subtrees) : Within m n := by
  induction n using induction_children with
  | h n ih =>
      rcases mem_subtrees_iff.1 hm with rfl | ⟨c, hc, hm⟩
      · exact .refl m
      · exact (ih c hc (h.of_mem_children hc) hm).trans
          ((h n (self_mem_subtrees n)).within c hc)

/-- Spans that follow each other share no byte. -/
theorem eq_of_shared_byte {α : Type*} (start stop : α → ℕ) {l : List α}
    (h : l.Pairwise fun a b => stop a ≤ start b) {a b : α} (ha : a ∈ l)
    (hb : b ∈ l) {byte : ℕ} (hbyte : start a ≤ byte ∧ byte < stop a)
    (hbyte' : start b ≤ byte ∧ byte < stop b) : a = b := by
  induction h with
  | nil => cases ha
  | cons hfirst _ ih =>
      rcases List.mem_cons.1 ha with rfl | hrest
      · rcases List.mem_cons.1 hb with rfl | hrest
        · rfl
        · have hle := hfirst b hrest
          exact absurd hbyte.2 (Nat.not_lt.2 (Nat.le_trans hle hbyte'.1))
      · rcases List.mem_cons.1 hb with rfl | hrest'
        · have hle := hfirst a hrest
          exact absurd hbyte'.2 (Nat.not_lt.2 (Nat.le_trans hle hbyte.1))
        · exact ih hrest hrest'

theorem Ordered.eq_of_covers {n c d : SpanTree K} (h : n.Ordered)
    (hc : c ∈ n.children) (hd : d ∈ n.children) {byte : ℕ}
    (hbyte : Covers c byte) (hbyte' : Covers d byte) : c = d :=
  eq_of_shared_byte start stop (h n (self_mem_subtrees n)).siblings hc hd hbyte
    hbyte'

theorem Ordered.eq_of_mem_topmost {p skip : K → Bool} {n a b : SpanTree K}
    (h : n.Ordered) (ha : a ∈ n.topmost p skip) (hb : b ∈ n.topmost p skip)
    {byte : ℕ} (hbyte : Covers a byte) (hbyte' : Covers b byte) : a = b := by
  induction n using induction_children with
  | h n ih =>
      rcases mem_topmost_iff.1 ha with ⟨hp, rfl⟩ | ⟨hp, hskip, c, hc, hac⟩
      · rcases mem_topmost_iff.1 hb with ⟨-, rfl⟩ | ⟨hfalse, -⟩
        · rfl
        · rw [hp] at hfalse
          cases hfalse
      · rcases mem_topmost_iff.1 hb with ⟨htrue, -⟩ | ⟨-, -, d, hd, hbd⟩
        · rw [hp] at htrue
          cases htrue
        · have hcord := h.of_mem_children hc
          have hdord := h.of_mem_children hd
          obtain rfl := h.eq_of_covers hc hd
            (hbyte.mono (hcord.within (mem_subtrees_of_mem_topmost hac)))
            (hbyte'.mono (hdord.within (mem_subtrees_of_mem_topmost hbd)))
          exact ih c hc hcord hac hbd

/-! ## Moved trees -/

mutual

/-- The tree with its positions moved by `f`. -/
def move (f : ℕ → ℕ) : SpanTree K → SpanTree K
  | node kind start stop children =>
      node kind (f start) (f stop) (moveAll f children)

def moveAll (f : ℕ → ℕ) : List (SpanTree K) → List (SpanTree K)
  | [] => []
  | n :: ns => move f n :: moveAll f ns

end

section Move

variable {f : ℕ → ℕ}

theorem moveAll_eq (ns : List (SpanTree K)) : moveAll f ns = ns.map (move f) := by
  induction ns with
  | nil => rfl
  | cons n ns ih => simp [moveAll, ih]

@[simp] theorem kind_move (n : SpanTree K) : (n.move f).kind = n.kind := by
  cases n
  rfl

@[simp] theorem start_move (n : SpanTree K) :
    (n.move f).start = f n.start := by
  cases n
  rfl

@[simp] theorem stop_move (n : SpanTree K) : (n.move f).stop = f n.stop := by
  cases n
  rfl

@[simp] theorem children_move (n : SpanTree K) :
    (n.move f).children = n.children.map (move f) := by
  cases n
  exact moveAll_eq _

theorem move_eq (n : SpanTree K) :
    n.move f = node n.kind (f n.start) (f n.stop) (n.children.map (move f)) := by
  cases n
  rw [move, moveAll_eq]
  rfl

/-- A move that takes back another one. -/
theorem move_move_of_eq {f g : ℕ → ℕ} (n : SpanTree K)
    (h : ∀ m ∈ n.subtrees, g (f m.start) = m.start ∧ g (f m.stop) = m.stop) :
    (n.move f).move g = n := by
  induction n using induction_children with
  | h n ih =>
      have hchildren : (n.children.map (move f)).map (move g) = n.children := by
        rw [List.map_map]
        refine (List.map_congr_left ?_).trans (List.map_id _)
        intro c hc
        exact ih c hc fun m hm => h m (mem_subtrees_of_child hc hm)
      obtain ⟨hstart, hstop⟩ := h n (self_mem_subtrees n)
      rw [move_eq (n.move f), kind_move, start_move, stop_move, children_move,
        hchildren, hstart, hstop]
      cases n
      rfl

theorem subtrees_move (n : SpanTree K) :
    (n.move f).subtrees = n.subtrees.map (move f) := by
  induction n using induction_children with
  | h n ih =>
      rw [subtrees_eq, subtrees_eq, children_move, List.map_cons,
        List.flatMap_map, List.map_flatMap]
      congr 1
      exact List.flatMap_congr ih

theorem topmost_move {p skip : K → Bool} (n : SpanTree K) :
    (n.move f).topmost p skip = (n.topmost p skip).map (move f) := by
  induction n using induction_children with
  | h n ih =>
      rw [topmost_eq, topmost_eq, kind_move, children_move, List.flatMap_map]
      split
      · rfl
      · split
        · rfl
        · rw [List.map_flatMap]
          exact List.flatMap_congr ih

section Visit

variable {α β : Type*} {φ : α → β}

/-- A visit of a moved tree, step by step. -/
theorem visitIn_move {visit : List (SpanTree K) → SpanTree K → List α × Bool}
    {visit' : List (SpanTree K) → SpanTree K → List β × Bool}
    {n : SpanTree K}
    (h : ∀ m ∈ n.subtrees, ∀ siblings,
      visit' (siblings.map (move f)) (m.move f) =
        ((visit siblings m).1.map φ, (visit siblings m).2))
    (siblings : List (SpanTree K)) :
    visitIn visit' (siblings.map (move f)) (n.move f) =
      (visitIn visit siblings n).map φ := by
  induction n using induction_children generalizing siblings with
  | h n ih =>
      rw [visitIn_eq, visitIn_eq, h n (self_mem_subtrees n), children_move,
        List.map_append]
      congr 1
      split
      · rw [List.flatMap_map, List.map_flatMap]
        apply List.flatMap_congr
        intro c hc
        exact ih c hc (fun m hm => h m (mem_subtrees_of_child hc hm)) _
      · rfl

theorem visitStack_move {visit : SpanTree K → List α × Bool}
    {visit' : SpanTree K → List β × Bool} {n : SpanTree K}
    (h : ∀ m ∈ n.subtrees,
      visit' (m.move f) = ((visit m).1.map φ, (visit m).2)) :
    visitStack visit' (n.move f) = (visitStack visit n).map φ := by
  induction n using induction_children with
  | h n ih =>
      rw [visitStack_eq, visitStack_eq, h n (self_mem_subtrees n),
        children_move, List.map_append]
      congr 1
      split
      · rw [← List.map_reverse, List.flatMap_map, List.map_flatMap]
        apply List.flatMap_congr
        intro c hc
        have hc := List.mem_reverse.1 hc
        exact ih c hc fun m hm => h m (mem_subtrees_of_child hc hm)
      · rfl

end Visit

end Move

end SpanTree

end Tempr.Support
