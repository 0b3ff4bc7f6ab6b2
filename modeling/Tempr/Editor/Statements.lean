import Mathlib.Data.List.Basic
import Mathlib.Data.List.Chain

/-!
# Statements of a text

The children of the root of a syntax tree are the statements of the text, with
comments and terminators between them. The ranges of all statements come from
one pass over the children, and the range at an offset from one child and its
neighbours; the two agree.
-/

namespace Tempr.Editor

/-! ## The children of the root -/

/-- What a child of the root is. -/
inductive RootKind
  | statement
  | transaction
  | block
  | error
  | comment
  | semicolon
  deriving DecidableEq, Repr

inductive StatementKind
  | statement
  | transaction
  | block
  | error
  deriving DecidableEq, Repr

/-- The bytes of a child. A comment has its marker. -/
structure RootChild where
  kind : RootKind
  start : ℕ
  stop : ℕ
  start_le : start ≤ stop
  comment_lt : kind = .comment → start < stop

/-- The children are in the order of the text and do not overlap, and no two
terminators are neighbours. -/
structure RootChildren where
  nodes : List RootChild
  ordered : nodes.Pairwise fun a b => a.stop ≤ b.start
  separated : nodes.IsChain fun a b =>
    ¬ (a.kind = .semicolon ∧ b.kind = .semicolon)

structure StatementRange where
  start : ℕ
  stop : ℕ
  kind : StatementKind
  deriving DecidableEq, Repr

namespace StatementRange

def contains (range : StatementRange) (offset : ℕ) : Prop :=
  range.start ≤ offset ∧ offset < range.stop

instance (range : StatementRange) (offset : ℕ) :
    Decidable (range.contains offset) :=
  inferInstanceAs (Decidable (_ ∧ _))

end StatementRange

def kindOf (child : RootChild) : Option StatementKind :=
  match child.kind with
  | .statement => some .statement
  | .transaction => some .transaction
  | .block => some .block
  | .error => some .error
  | _ => none

/-! ## All statements -/

/-- A statement begins a range; a terminator directly after the last range
belongs to it. -/
def pushChild (ranges : List StatementRange) (child : RootChild) :
    List StatementRange :=
  if child.kind = .semicolon then
    match ranges.getLast? with
    | some last =>
        if last.stop = child.start then
          ranges.dropLast ++ [{ last with stop := child.stop }]
        else ranges
    | none => ranges
  else
    match kindOf child with
    | some kind => ranges ++ [⟨child.start, child.stop, kind⟩]
    | none => ranges

/-- The ranges of the statements, in the order of the text. -/
def statementRanges (children : List RootChild) : List StatementRange :=
  children.foldl pushChild []

/-! ## The statement at an offset -/

/-- The sibling before the child at `i`. -/
def prevSibling (i : ℕ) : Option ℕ :=
  if i = 0 then none else some (i - 1)

def lastChild (children : List RootChild) : Option ℕ :=
  if children.length = 0 then none else some (children.length - 1)

/-- Where a statement ends whose node ends at `stop`, given the sibling after
it. -/
def terminatedStop (stop : ℕ) (next : Option RootChild) : ℕ :=
  match next with
  | some next =>
      if next.kind = .semicolon ∧ next.start = stop then next.stop else stop
  | none => stop

/-- The child that the offset may belong to. The tree looks up the first child
for a byte by `firstChildForByte`; after the last child there is none. A
terminator stands for the statement before it. -/
def statementNode (firstChildForByte : List RootChild → ℕ → Option ℕ)
    (children : List RootChild) (offset : ℕ) : Option ℕ := do
  let found ← (firstChildForByte children offset).or (lastChild children)
  if children[found]?.map (·.kind) = some .semicolon then prevSibling found
  else some found

/-- The range of the child at `node`, if the offset belongs to it. -/
def statementFrom (children : List RootChild) (node offset : ℕ) :
    Option StatementRange := do
  let child ← children[node]?
  let kind ← kindOf child
  let next := children[node + 1]?
  let range : StatementRange :=
    ⟨child.start, terminatedStop child.stop next, kind⟩
  let isLast := next.all fun n =>
    decide (n.kind = .semicolon) && children[node + 2]?.isNone
  if range.contains offset ∨ (offset = range.stop ∧ isLast) then some range
  else none

/-- The range of the statement that the offset belongs to. -/
def statementAt (firstChildForByte : List RootChild → ℕ → Option ℕ)
    (children : List RootChild) (offset : ℕ) : Option StatementRange := do
  let node ← statementNode firstChildForByte children offset
  statementFrom children node offset

/-- The first child that ends after the offset. -/
def FindsFirstAfter (lookup : List RootChild → ℕ → Option ℕ) : Prop :=
  ∀ children offset,
    lookup children offset = children.findIdx? fun c => offset < c.stop

/-- Nothing but a terminator is left. -/
def OnlyTerminator (rest : List RootChild) : Prop :=
  rest = [] ∨ ∃ next, rest = [next] ∧ next.kind = .semicolon

/-- The range is that of the last child, apart from a terminator after it. -/
def IsLastStatement (children : List RootChild) (range : StatementRange) :
    Prop :=
  (statementRanges children).getLast? = some range ∧
    ∃ before child rest, children = before ++ child :: rest ∧
      (kindOf child).isSome ∧ OnlyTerminator rest

/-! ## A range for each statement -/

/-- The range of a child that is followed by `rest`. -/
def rangeFrom (child : RootChild) (rest : List RootChild) :
    Option StatementRange :=
  (kindOf child).map fun kind =>
    ⟨child.start, terminatedStop child.stop rest.head?, kind⟩

def rangesFrom : List RootChild → List StatementRange
  | [] => []
  | child :: rest => (rangeFrom child rest).toList ++ rangesFrom rest

theorem kindOf_semicolon {child : RootChild} (h : child.kind = .semicolon) :
    kindOf child = none := by
  rw [kindOf, h]

theorem kind_of_kindOf {child : RootChild} (hsemi : child.kind ≠ .semicolon)
    (h : kindOf child = none) : child.kind = .comment := by
  cases hkind : child.kind <;> simp_all [kindOf]

theorem terminatedStop_of_apart {stop : ℕ} {next : Option RootChild}
    (h : ∀ n, next = some n → ¬ (n.kind = .semicolon ∧ n.start = stop)) :
    terminatedStop stop next = stop := by
  cases next with
  | none => rfl
  | some n => rw [terminatedStop, if_neg (h n rfl)]

theorem le_terminatedStop (stop : ℕ) (next : Option RootChild) :
    stop ≤ terminatedStop stop next := by
  cases next with
  | none => exact le_rfl
  | some n =>
    rw [terminatedStop]
    split
    · rename_i h
      exact h.2 ▸ n.start_le
    · exact le_rfl

theorem rangesFrom_cons_of_none {child : RootChild} (h : kindOf child = none)
    (rest : List RootChild) :
    rangesFrom (child :: rest) = rangesFrom rest := by
  simp [rangesFrom, rangeFrom, h]

theorem rangesFrom_cons_of_some {child : RootChild} {kind : StatementKind}
    (h : kindOf child = some kind) (rest : List RootChild) :
    rangesFrom (child :: rest) =
      ⟨child.start, terminatedStop child.stop rest.head?, kind⟩ ::
        rangesFrom rest := by
  simp [rangesFrom, rangeFrom, h]

/-- One pass over what follows the range `r`: only the child directly after it
can extend it. -/
theorem foldl_pushChild (rest : List RootChild)
    (hordered : rest.Pairwise fun a b => a.stop ≤ b.start)
    (hseparated : rest.IsChain fun a b =>
      ¬ (a.kind = .semicolon ∧ b.kind = .semicolon))
    (acc : List StatementRange) (r : StatementRange)
    (hafter : ∀ c ∈ rest, r.stop ≤ c.start) :
    rest.foldl pushChild (acc ++ [r]) =
      acc ++ { r with stop := terminatedStop r.stop rest.head? } ::
        rangesFrom rest := by
  induction rest generalizing acc r with
  | nil => rfl
  | cons c rest ih =>
    obtain ⟨hc, hrest⟩ := List.pairwise_cons.mp hordered
    have hchain := hseparated.tail
    have hstart : r.stop ≤ c.start := hafter c (by simp)
    have hle := c.start_le
    have hlater : ∀ d ∈ rest, r.stop ≤ d.start := fun d hd =>
      hafter d (by simp [hd])
    rw [List.foldl_cons, List.head?_cons]
    by_cases hsemi : c.kind = .semicolon
    · have hnext : ∀ n, rest.head? = some n → n.kind ≠ .semicolon := by
        intro n hn hkind
        obtain ⟨tail, rfl⟩ := List.head?_eq_some_iff.mp hn
        exact hseparated.rel ⟨hsemi, hkind⟩
      rw [rangesFrom_cons_of_none (kindOf_semicolon hsemi)]
      by_cases hat : r.stop = c.start
      · have hpush : pushChild (acc ++ [r]) c =
            acc ++ [{ r with stop := c.stop }] := by
          simp [pushChild, hsemi, hat]
        rw [hpush, ih hrest hchain _ _ hc, terminatedStop_of_apart
          fun n hn hboth => hnext n hn hboth.1]
        simp [terminatedStop, hsemi, hat]
      · have hpush : pushChild (acc ++ [r]) c = acc ++ [r] := by
          simp [pushChild, hsemi, hat]
        rw [hpush, ih hrest hchain _ _ hlater, terminatedStop_of_apart
          fun n hn hboth => hnext n hn hboth.1]
        simp [terminatedStop, Ne.symm hat]
    · have hself : terminatedStop r.stop (some c) = r.stop :=
        terminatedStop_of_apart fun n hn hboth => by
          cases hn
          exact hsemi hboth.1
      rw [hself]
      cases hkind : kindOf c with
      | none =>
        -- a comment keeps what follows it away from the range
        have hcomment := c.comment_lt (kind_of_kindOf hsemi hkind)
        have hpush : pushChild (acc ++ [r]) c = acc ++ [r] := by
          simp [pushChild, hsemi, hkind]
        rw [hpush, ih hrest hchain _ _ hlater, rangesFrom_cons_of_none hkind,
          terminatedStop_of_apart]
        intro n hn hboth
        have := hc n (List.mem_of_mem_head? hn)
        omega
      | some kind =>
        have hpush : pushChild (acc ++ [r]) c =
            (acc ++ [r]) ++ [⟨c.start, c.stop, kind⟩] := by
          simp [pushChild, hsemi, hkind]
        rw [hpush, ih hrest hchain _ _ hc, rangesFrom_cons_of_some hkind,
          List.append_assoc]
        rfl

/-- The one pass gives every statement its range. -/
theorem statementRanges_eq (children : List RootChild)
    (hordered : children.Pairwise fun a b => a.stop ≤ b.start)
    (hseparated : children.IsChain fun a b =>
      ¬ (a.kind = .semicolon ∧ b.kind = .semicolon)) :
    statementRanges children = rangesFrom children := by
  rw [statementRanges]
  induction children with
  | nil => rfl
  | cons c rest ih =>
    obtain ⟨hc, hrest⟩ := List.pairwise_cons.mp hordered
    have hchain := hseparated.tail
    rw [List.foldl_cons]
    cases hkind : kindOf c with
    | none =>
      have hpush : pushChild [] c = [] := by simp [pushChild, hkind]
      rw [hpush, ih hrest hchain, rangesFrom_cons_of_none hkind]
    | some kind =>
      have hsemi : c.kind ≠ .semicolon := fun h => by
        rw [kindOf_semicolon h] at hkind
        cases hkind
      have hpush : pushChild [] c = [] ++ [⟨c.start, c.stop, kind⟩] := by
        simp [pushChild, hsemi, hkind]
      rw [hpush, foldl_pushChild rest hrest hchain _ _ hc,
        rangesFrom_cons_of_some hkind]
      rfl

theorem mem_rangesFrom_iff {children : List RootChild} {r : StatementRange} :
    r ∈ rangesFrom children ↔
      ∃ before child rest, children = before ++ child :: rest ∧
        rangeFrom child rest = some r := by
  induction children with
  | nil => simp [rangesFrom]
  | cons c rest ih =>
    rw [rangesFrom, List.mem_append, ih, Option.mem_toList]
    constructor
    · rintro (hr | ⟨before, child, after, rfl, hr⟩)
      · exact ⟨[], c, rest, rfl, hr⟩
      · exact ⟨c :: before, child, after, rfl, hr⟩
    · rintro ⟨before, child, after, hsplit, hr⟩
      rcases List.append_eq_cons_iff.mp hsplit.symm with
        ⟨rfl, heq⟩ | ⟨tail, rfl, rfl⟩
      · obtain ⟨rfl, rfl⟩ := List.cons.inj heq
        exact Or.inl hr
      · exact Or.inr ⟨tail, child, after, rfl, hr⟩

theorem rangesFrom_append (before after : List RootChild) :
    ∃ front, rangesFrom (before ++ after) = front ++ rangesFrom after := by
  induction before with
  | nil => exact ⟨[], rfl⟩
  | cons c before ih =>
    obtain ⟨front, hfront⟩ := ih
    refine ⟨(rangeFrom c (before ++ after)).toList ++ front, ?_⟩
    rw [List.cons_append, rangesFrom, hfront, List.append_assoc]

theorem getLast_rangesFrom {before rest : List RootChild} {child : RootChild}
    {r : StatementRange} (hr : rangeFrom child rest = some r)
    (hrest : OnlyTerminator rest) :
    (rangesFrom (before ++ child :: rest)).getLast? = some r := by
  obtain ⟨front, hfront⟩ := rangesFrom_append before (child :: rest)
  have hnone : rangesFrom rest = [] := by
    rcases hrest with rfl | ⟨next, rfl, hsemi⟩
    · rfl
    · exact rangesFrom_cons_of_none (kindOf_semicolon hsemi) []
  rw [hfront, rangesFrom, hr, hnone]
  simp

/-! ## The statement of a node -/

theorem statementFrom_eq_some_iff {before rest : List RootChild}
    {child : RootChild} {offset : ℕ} {r : StatementRange} :
    statementFrom (before ++ child :: rest) before.length offset = some r ↔
      rangeFrom child rest = some r ∧
        (r.contains offset ∨ (OnlyTerminator rest ∧ offset = r.stop)) := by
  have hlast : (rest.head?.all fun n =>
      decide (n.kind = .semicolon) && rest[1]?.isNone) = true ↔
        OnlyTerminator rest := by
    rcases rest with _ | ⟨next, _ | ⟨other, rest⟩⟩
    · simp [OnlyTerminator]
    · simp [OnlyTerminator]
    · simp [OnlyTerminator]
  have hnext : (before ++ child :: rest)[before.length + 1]? = rest.head? := by
    rw [List.getElem?_append_right (by omega), List.head?_eq_getElem?]
    simp
  have hafter : (before ++ child :: rest)[before.length + 2]? = rest[1]? := by
    rw [List.getElem?_append_right (by omega)]
    simp
  have hself : (before ++ child :: rest)[before.length]? = some child := by simp
  cases hkind : kindOf child with
  | none => simp [statementFrom, rangeFrom, hkind]
  | some kind =>
    simp only [statementFrom, hself, hkind, hnext, hafter, hlast, rangeFrom,
      Option.bind_eq_bind, Option.bind_some, Option.map_some,
      Option.ite_none_right_eq_some, Option.some.injEq]
    constructor
    · rintro ⟨hat | ⟨hstop, honly⟩, rfl⟩
      · exact ⟨rfl, Or.inl hat⟩
      · exact ⟨rfl, Or.inr ⟨honly, hstop⟩⟩
    · rintro ⟨rfl, hat | ⟨honly, hstop⟩⟩
      · exact ⟨Or.inl hat, rfl⟩
      · exact ⟨Or.inr ⟨hstop, honly⟩, rfl⟩

/-! ## The node at an offset -/

section Lookup

variable {firstChildForByte : List RootChild → ℕ → Option ℕ}

/-- Children that end at the offset or before it are passed over. -/
theorem findIdx_after {before after : List RootChild} {offset : ℕ}
    (hbefore : ∀ c ∈ before, c.stop ≤ offset) :
    ((before ++ after).findIdx? fun c => offset < c.stop) =
      (after.findIdx? fun c => offset < c.stop).map (· + before.length) := by
  have hnone : (before.findIdx? fun c => offset < c.stop) = none := by
    rw [List.findIdx?_eq_none_iff]
    intro c hc
    simpa using hbefore c hc
  rw [List.findIdx?_append, hnone, Option.none_or]

theorem statementNode_of_found {children : List RootChild} {offset found : ℕ}
    {c : RootChild}
    (hfound : (firstChildForByte children offset).or (lastChild children) =
      some found)
    (hc : children[found]? = some c) :
    statementNode firstChildForByte children offset =
      if c.kind = .semicolon then prevSibling found else some found := by
  rw [statementNode, hfound]
  simp [hc]

variable (hfirst : FindsFirstAfter firstChildForByte)
include hfirst

/-- The node of a statement that the offset belongs to: the lookup finds the
statement, or the terminator that belongs to it. -/
theorem statementNode_of_belongs {before rest : List RootChild}
    {child : RootChild} {offset : ℕ} {r : StatementRange}
    (hordered : (before ++ child :: rest).Pairwise fun a b =>
      a.stop ≤ b.start)
    (hr : rangeFrom child rest = some r)
    (hat : r.contains offset ∨ (OnlyTerminator rest ∧ offset = r.stop)) :
    statementNode firstChildForByte (before ++ child :: rest) offset =
      some before.length := by
  obtain ⟨-, htail, hcross⟩ := List.pairwise_append.mp hordered
  obtain ⟨hnext, -⟩ := List.pairwise_cons.mp htail
  obtain ⟨kind, hkind, rfl⟩ := Option.map_eq_some_iff.mp hr
  have hsemi : child.kind ≠ .semicolon := fun h => by
    rw [kindOf_semicolon h] at hkind
    cases hkind
  have hle := child.start_le
  have hstart : child.start ≤ offset := by
    rcases hat with hat | ⟨-, hstop⟩
    · exact hat.1
    · have hgrow := le_terminatedStop child.stop rest.head?
      simp only at hstop
      omega
  have hbefore : ∀ c ∈ before, c.stop ≤ offset := fun c hc =>
    (hcross c hc child (by simp)).trans hstart
  have hself : (before ++ child :: rest)[before.length]? = some child := by simp
  by_cases hin : offset < child.stop
  · have hfound : (firstChildForByte (before ++ child :: rest) offset).or
        (lastChild (before ++ child :: rest)) = some before.length := by
      rw [hfirst, findIdx_after hbefore]
      simp [List.findIdx?_cons, hin]
    rw [statementNode_of_found hfound hself, if_neg hsemi]
  -- past its own bytes a statement has only its terminator
  cases rest with
  | nil =>
    have hfound : (firstChildForByte (before ++ [child]) offset).or
        (lastChild (before ++ [child])) = some before.length := by
      rw [hfirst, findIdx_after hbefore]
      simp [List.findIdx?_cons, hin, lastChild]
    rw [statementNode_of_found hfound hself, if_neg hsemi]
  | cons next tail =>
    have hnextSelf :
        (before ++ child :: next :: tail)[before.length + 1]? = some next := by
      rw [List.getElem?_append_right (by omega)]
      simp
    have hterminator : next.kind = .semicolon ∧
        (offset < next.stop ∨ tail = []) := by
      rcases hat with hat | ⟨honly, -⟩
      · have hstop : offset < terminatedStop child.stop (some next) := hat.2
        rw [terminatedStop] at hstop
        split at hstop
        · rename_i h
          exact ⟨h.1, Or.inl hstop⟩
        · exact absurd hstop hin
      · rcases honly with hnil | ⟨n, hn, hkind⟩
        · cases hnil
        · cases hn
          exact ⟨hkind, Or.inr rfl⟩
    have hfound : (firstChildForByte (before ++ child :: next :: tail) offset).or
        (lastChild (before ++ child :: next :: tail)) =
          some (before.length + 1) := by
      rw [hfirst, findIdx_after hbefore]
      by_cases hnextIn : offset < next.stop
      · simp [List.findIdx?_cons, hin, hnextIn, Nat.add_comm]
      · have htailNil := hterminator.2.resolve_left hnextIn
        subst htailNil
        simp [List.findIdx?_cons, hin, hnextIn, lastChild]
    rw [statementNode_of_found hfound hnextSelf, if_pos hterminator.1,
      prevSibling, if_neg (by omega), Nat.add_sub_cancel]

omit hfirst in
theorem statementAt_sound {children : RootChildren} {offset : ℕ}
    {r : StatementRange}
    (h : statementAt firstChildForByte children.nodes offset = some r) :
    r ∈ statementRanges children.nodes ∧
      (r.contains offset ∨
        (IsLastStatement children.nodes r ∧ offset = r.stop)) := by
  have hranges := statementRanges_eq children.nodes children.ordered
    children.separated
  obtain ⟨node, -, hfrom⟩ := Option.bind_eq_some_iff.mp h
  have hlt : node < children.nodes.length := by
    by_contra hge
    rw [statementFrom, List.getElem?_eq_none (Nat.le_of_not_lt hge)] at hfrom
    cases hfrom
  have hsplit : children.nodes =
      children.nodes.take node ++
        children.nodes[node] :: children.nodes.drop (node + 1) := by
    rw [← List.drop_eq_getElem_cons hlt, List.take_append_drop]
  have hlen : (children.nodes.take node).length = node := by
    rw [List.length_take]
    omega
  generalize children.nodes[node] = child at hsplit
  generalize children.nodes.drop (node + 1) = rest at hsplit
  generalize children.nodes.take node = before at hsplit hlen
  rw [hsplit, ← hlen, statementFrom_eq_some_iff] at hfrom
  obtain ⟨hr, hat⟩ := hfrom
  refine ⟨?_, hat.imp_right fun ⟨honly, hstop⟩ => ⟨⟨?_, ?_⟩, hstop⟩⟩
  · rw [hranges, mem_rangesFrom_iff]
    exact ⟨before, child, rest, hsplit, hr⟩
  · rw [hranges, hsplit]
    exact getLast_rangesFrom hr honly
  · obtain ⟨kind, hkind, -⟩ := Option.map_eq_some_iff.mp hr
    exact ⟨before, child, rest, hsplit, by rw [hkind]; rfl, honly⟩

/-- The range at an offset is the one of all ranges that contains it, or the
last one at its end. -/
theorem statementAt_eq_some_iff (children : RootChildren) (offset : ℕ)
    (r : StatementRange) :
    statementAt firstChildForByte children.nodes offset = some r ↔
      r ∈ statementRanges children.nodes ∧
        (r.contains offset ∨
          (IsLastStatement children.nodes r ∧ offset = r.stop)) := by
  have hranges := statementRanges_eq children.nodes children.ordered
    children.separated
  refine ⟨statementAt_sound, ?_⟩
  have hgoes : ∀ before child rest, children.nodes = before ++ child :: rest →
      rangeFrom child rest = some r →
      (r.contains offset ∨ (OnlyTerminator rest ∧ offset = r.stop)) →
      statementAt firstChildForByte children.nodes offset = some r := by
    intro before child rest hsplit hr hat
    have hordered := children.ordered
    rw [hsplit] at hordered ⊢
    rw [statementAt, statementNode_of_belongs hfirst hordered hr hat]
    exact statementFrom_eq_some_iff.mpr ⟨hr, hat⟩
  rintro ⟨hmem, hat | ⟨⟨hlast, before, child, rest, hsplit, hkind, honly⟩, hstop⟩⟩
  · rw [hranges, mem_rangesFrom_iff] at hmem
    obtain ⟨before, child, rest, hsplit, hr⟩ := hmem
    exact hgoes before child rest hsplit hr (Or.inl hat)
  · obtain ⟨kind, hkind⟩ := Option.isSome_iff_exists.mp hkind
    have hown : rangeFrom child rest =
        some ⟨child.start, terminatedStop child.stop rest.head?, kind⟩ := by
      rw [rangeFrom, hkind, Option.map_some]
    have hr : rangeFrom child rest = some r := by
      rw [hranges, hsplit, getLast_rangesFrom hown honly] at hlast
      rw [hown, hlast]
    exact hgoes before child rest hsplit hr (Or.inr ⟨honly, hstop⟩)

end Lookup

/-- The children of `select 1; -- one` and, on the next line, `select 2`. -/
def twoStatements : RootChildren where
  nodes := [⟨.statement, 0, 8, by decide, by decide⟩,
    ⟨.semicolon, 8, 9, by decide, by decide⟩,
    ⟨.comment, 10, 16, by decide, by decide⟩,
    ⟨.statement, 17, 25, by decide, by decide⟩]
  ordered := by decide
  separated := by decide

theorem statementAt_eq_some_iff_two :
    statementAt (fun children offset =>
        children.findIdx? fun c => offset < c.stop) twoStatements.nodes 8 =
      some ⟨0, 9, .statement⟩ := by
  rw [statementAt_eq_some_iff (fun _ _ => rfl) twoStatements]
  exact ⟨by decide, Or.inl (by decide)⟩

end Tempr.Editor
