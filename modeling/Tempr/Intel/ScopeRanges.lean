import Tempr.Intel.BrokenSyntax
import Tempr.Intel.Requests

/-!
# The ranges of scopes

The parts of a region, the regions inside and the sides of set operations lie
apart from each other in the text, so that a byte is in one of each at most. A
scope is found again by its range.
-/

namespace Tempr.Intel

open Tempr.Support
open Tempr.Editor (ByteRange Buffer)

namespace Node

/-! ## The ranges of scopes -/

/-- The CTE bodies that a region walks. -/
def bodies (region : Node) : List Node :=
  if region.kind = .error then []
  else (region.direct .cte).filterMap cteBody

/-- All CTE bodies that are walked inside a region. -/
def bodiesWithin (region : Node) : List Node :=
  region.regionsWithin.flatMap bodies

/-- Does the node lie in the body of a CTE? -/
def InCteBody (region node : Node) : Prop :=
  ∃ body ∈ region.bodiesWithin, SpanTree.Within node body

instance (region node : Node) : Decidable (region.InCteBody node) :=
  inferInstanceAs (Decidable (∃ body ∈ _, SpanTree.Within _ body))

/-- The ranges of the sides of a region. -/
def sideRanges (region : Node) : List ByteRange :=
  if region.hasSides then region.groups.map fun group => partsRange group.parts
  else []

/-- The ranges of all scopes of a region. -/
def scopeRanges (region : Node) : List ByteRange :=
  region.regionsWithin.flatMap fun r => r.range :: r.sideRanges

/-- Of the ranges, all that reach the offset have the byte. -/
def ReachedThrough (ranges : List ByteRange) (offset byte : ℕ) : Prop :=
  ∀ range ∈ ranges, range.start ≤ offset → offset ≤ range.stop →
    range.start ≤ byte ∧ byte < range.stop

/-- The offset is before or behind a byte of the node, and no scope reaches the
offset that does not have this byte: so where a node touches a scope beside it,
their common offset belongs to neither. -/
def HasOffset (ranges : List ByteRange) (node : Node) (offset : ℕ) : Prop :=
  ∃ byte, SpanTree.Covers node byte ∧ byte ≤ offset ∧ offset ≤ byte + 1 ∧
    ReachedThrough ranges offset byte

/-- No subquery lies in a column reference. -/
def PlainFields (region : Node) : Prop :=
  ∀ node ∈ region.subtrees, SpanTree.kind node = .field →
    subqueries node = []

instance (region : Node) : Decidable region.PlainFields :=
  inferInstanceAs (Decidable (∀ node ∈ region.subtrees,
    SpanTree.kind node = .field → subqueries node = []))

theorem mem_bodies_of_cteBody {region cte body : Node}
    (herror : region.kind ≠ .error) (hcte : cte ∈ region.direct .cte)
    (hbody : cteBody cte = some body) : body ∈ region.bodies := by
  rw [bodies, if_neg herror]
  exact List.mem_filterMap.2 ⟨cte, hcte, hbody⟩

theorem mem_bodiesWithin_iff {region body : Node} :
    body ∈ region.bodiesWithin ↔ body ∈ region.bodies ∨
      ∃ sub ∈ region.innerRegions, body ∈ sub.bodiesWithin := by
  simp only [bodiesWithin, List.mem_flatMap]
  constructor
  · rintro ⟨r, hr, hbody⟩
    rcases mem_regionsWithin_iff.1 hr with rfl | ⟨sub, hsub, hr⟩
    · exact .inl hbody
    · exact .inr ⟨sub, hsub, r, hr, hbody⟩
  · rintro (hbody | ⟨sub, hsub, r, hr, hbody⟩)
    · exact ⟨region, mem_regionsWithin_iff.2 (.inl rfl), hbody⟩
    · exact ⟨r, mem_regionsWithin_iff.2 (.inr ⟨sub, hsub, hr⟩), hbody⟩

theorem range_mem_scopeRanges (region : Node) :
    region.range ∈ region.scopeRanges :=
  List.mem_flatMap.2
    ⟨region, mem_regionsWithin_iff.2 (.inl rfl), List.mem_cons_self⟩

theorem scopeRanges_subset_of_inner {region sub : Node}
    (h : sub ∈ region.innerRegions) :
    sub.scopeRanges ⊆ region.scopeRanges := by
  intro range hrange
  obtain ⟨r, hr, hrange⟩ := List.mem_flatMap.1 hrange
  exact List.mem_flatMap.2
    ⟨r, mem_regionsWithin_iff.2 (.inr ⟨sub, h, hr⟩), hrange⟩

theorem side_mem_scopeRanges {region : Node} {group : Group}
    (hsides : region.hasSides) (h : group ∈ region.groups) :
    partsRange group.parts ∈ region.scopeRanges := by
  refine List.mem_flatMap.2 ⟨region, mem_regionsWithin_iff.2 (.inl rfl),
    List.mem_cons_of_mem _ ?_⟩
  rw [sideRanges, if_pos hsides]
  exact List.mem_map_of_mem h

/-! ## Where the parts of a region lie -/

/-- The nodes whose children are the parts of a region. -/
def hosts (region : Node) : List Node :=
  if region.hasSides then region.operations else [region]

theorem exists_host {region part : Node} {group : Group}
    (hgroup : group ∈ region.groups) (hpart : part ∈ group.parts) :
    ∃ host ∈ region.hosts, part ∈ host.children := by
  rw [groups] at hgroup
  split at hgroup
  · cases hgroup
  · rw [hosts]
    split at hgroup
    · next hsides =>
        rw [if_pos hsides]
        obtain ⟨op, hop, hside⟩ := List.mem_flatMap.1 hgroup
        obtain ⟨side, hmem, rfl⟩ := List.mem_map.1 hside
        exact ⟨op, hop, mem_children_of_mem_side hmem hpart⟩
    · next hsides =>
        rw [if_neg hsides]
        rw [List.mem_singleton.1 hgroup] at hpart
        exact ⟨region, List.mem_singleton_self region, hpart⟩

/-- A host is the region, or a set operation among its children. -/
theorem eq_or_mem_of_mem_hosts {region host : Node} (h : host ∈ region.hosts) :
    region.hosts = [region] ∧ host = region ∨
      region.hosts = region.direct .setOperation ∧
        host ∈ region.direct .setOperation := by
  rw [hosts, operations] at h ⊢
  split at h
  · next hsides =>
      rw [if_pos hsides]
      split at h
      · next hkind =>
          rw [if_pos hkind]
          exact .inl ⟨rfl, List.mem_singleton.1 h⟩
      · next hkind =>
          rw [if_neg hkind]
          exact .inr ⟨rfl, h⟩
  · next hsides =>
      rw [if_neg hsides]
      exact .inl ⟨rfl, List.mem_singleton.1 h⟩

section Bytes

variable {region : Node} (hordered : region.Ordered) {byte : ℕ}
include hordered

theorem ordered_of_mem_hosts {host : Node} (h : host ∈ region.hosts) :
    SpanTree.Ordered host := by
  rcases eq_or_mem_of_mem_hosts h with ⟨-, rfl⟩ | ⟨-, hdirect⟩
  · exact hordered
  · exact hordered.of_mem_children (mem_direct.1 hdirect).1

theorem covers_host {host part : Node} (hhost : host ∈ region.hosts)
    (hpart : part ∈ host.children) (hbyte : SpanTree.Covers part byte) :
    SpanTree.Covers host byte :=
  hbyte.mono ((ordered_of_mem_hosts hordered hhost _
    (SpanTree.self_mem_subtrees host)).within part hpart)

theorem host_eq_of_covers {host host' : Node} (hhost : host ∈ region.hosts)
    (hhost' : host' ∈ region.hosts) (hbyte : SpanTree.Covers host byte)
    (hbyte' : SpanTree.Covers host' byte) : host = host' := by
  rcases eq_or_mem_of_mem_hosts hhost with ⟨hhosts, rfl⟩ | ⟨hhosts, hdirect⟩
  · rw [hhosts] at hhost'
    exact (List.mem_singleton.1 hhost').symm
  · rw [hhosts] at hhost'
    exact hordered.eq_of_covers (mem_direct.1 hdirect).1
      (mem_direct.1 hhost').1 hbyte hbyte'

/-- One part of a region has the byte. -/
theorem part_eq_of_covers {part part' : Node} {group group' : Group}
    (hgroup : group ∈ region.groups) (hpart : part ∈ group.parts)
    (hgroup' : group' ∈ region.groups) (hpart' : part' ∈ group'.parts)
    (hbyte : SpanTree.Covers part byte)
    (hbyte' : SpanTree.Covers part' byte) : part = part' := by
  obtain ⟨host, hhost, hchild⟩ := exists_host hgroup hpart
  obtain ⟨host', hhost', hchild'⟩ := exists_host hgroup' hpart'
  obtain rfl := host_eq_of_covers hordered hhost hhost'
    (covers_host hordered hhost hchild hbyte)
    (covers_host hordered hhost' hchild' hbyte')
  exact (ordered_of_mem_hosts hordered hhost).eq_of_covers hchild hchild' hbyte
    hbyte'

/-- A byte of a part that is no CTE is in no CTE of the region. -/
theorem not_covers_cte {part cte : Node} {group : Group}
    (hgroup : group ∈ region.groups) (hpart : part ∈ group.parts)
    (hkind : SpanTree.kind part ≠ .cte) (hbyte : SpanTree.Covers part byte)
    (hcte : cte ∈ region.direct .cte) : ¬SpanTree.Covers cte byte := by
  intro hbyte'
  obtain ⟨host, hhost, hchild⟩ := exists_host hgroup hpart
  obtain ⟨hmem, hctekind⟩ := mem_direct.1 hcte
  rcases eq_or_mem_of_mem_hosts hhost with ⟨-, rfl⟩ | ⟨-, hdirect⟩
  · obtain rfl := hordered.eq_of_covers hchild hmem hbyte hbyte'
    exact hkind hctekind
  · obtain rfl := hordered.eq_of_covers (mem_direct.1 hdirect).1 hmem
      (covers_host hordered hhost hchild hbyte) hbyte'
    rw [(mem_direct.1 hdirect).2] at hctekind
    cases hctekind

/-- A body has the bytes of its CTE only. -/
theorem exists_cte_of_covers {body : Node} (hbody : body ∈ region.bodies)
    (hbyte : SpanTree.Covers body byte) :
    ∃ cte ∈ region.direct .cte, SpanTree.Covers cte byte := by
  rw [bodies] at hbody
  split at hbody
  · cases hbody
  · obtain ⟨cte, hcte, hbody⟩ := List.mem_filterMap.1 hbody
    have hordered' := hordered.of_mem_children (mem_direct.1 hcte).1
    exact ⟨cte, hcte, hbyte.mono ((hordered' _
      (SpanTree.self_mem_subtrees cte)).within body
        (mem_children_of_cteBody hbody))⟩

omit hordered in
theorem kind_ne_cte_of_mem_partRegions {part sub : Node}
    (h : sub ∈ part.partRegions) : SpanTree.kind part ≠ .cte := by
  intro hkind
  rw [partRegions, if_neg (by rw [hkind]; decide), subqueries,
    SpanTree.topmost_eq, hkind] at h
  cases h

/-- One region of the parts has the byte. -/
theorem partRegion_eq_of_covers {part part' sub sub' : Node}
    {group group' : Group} (hgroup : group ∈ region.groups)
    (hpart : part ∈ group.parts) (hgroup' : group' ∈ region.groups)
    (hpart' : part' ∈ group'.parts) (hsub : sub ∈ part.partRegions)
    (hsub' : sub' ∈ part'.partRegions) (hbyte : SpanTree.Covers sub byte)
    (hbyte' : SpanTree.Covers sub' byte) : sub = sub' := by
  have hpartOrdered : ∀ {part : Node} {group : Group},
      group ∈ region.groups → part ∈ group.parts →
        SpanTree.Ordered part := by
    intro part group hgroup hpart
    obtain ⟨host, hhost, hchild⟩ := exists_host hgroup hpart
    exact (ordered_of_mem_hosts hordered hhost).of_mem_children hchild
  have hord := hpartOrdered hgroup hpart
  have hord' := hpartOrdered hgroup' hpart'
  obtain rfl := part_eq_of_covers hordered hgroup hpart hgroup' hpart'
    (hbyte.mono (hord.within (mem_subtrees_of_mem_partRegions hsub)))
    (hbyte'.mono (hord'.within (mem_subtrees_of_mem_partRegions hsub')))
  rw [partRegions] at hsub hsub'
  split at hsub
  · next hkind =>
      rw [if_pos hkind] at hsub'
      rw [List.mem_singleton.1 hsub, List.mem_singleton.1 hsub']
  · next hkind =>
      rw [if_neg hkind] at hsub'
      exact hord.eq_of_mem_topmost hsub hsub' hbyte hbyte'

end Bytes

/-! ## Column references and subqueries -/

theorem mem_fields_iff {part field : Node} :
    field ∈ SpanTree.visitStack fieldStep part ↔
      (SpanTree.kind part = .field ∧ field = part) ∨
        ((fieldStep part).2 = true ∧ ∃ child ∈ SpanTree.children part,
          field ∈ SpanTree.visitStack fieldStep child) := by
  rw [SpanTree.mem_visitStack_iff]
  cases part with
  | node kind start stop children =>
      cases kind <;> simp [fieldStep, SpanTree.kind]

theorem mem_subtrees_of_mem_fields {part field : Node}
    (h : field ∈ SpanTree.visitStack fieldStep part) :
    field ∈ part.subtrees := by
  induction part using SpanTree.induction_children with
  | h part ih =>
      rcases mem_fields_iff.1 h with ⟨-, rfl⟩ | ⟨-, child, hchild, h⟩
      · exact SpanTree.self_mem_subtrees field
      · exact SpanTree.mem_subtrees_of_child hchild (ih child hchild h)

theorem kind_of_mem_fields {part field : Node}
    (h : field ∈ SpanTree.visitStack fieldStep part) :
    SpanTree.kind field = .field := by
  induction part using SpanTree.induction_children with
  | h part ih =>
      rcases mem_fields_iff.1 h with ⟨hkind, rfl⟩ | ⟨-, child, hchild, h⟩
      · exact hkind
      · exact ih child hchild h

theorem kind_ne_cte_of_mem_fields {part field : Node}
    (h : field ∈ SpanTree.visitStack fieldStep part) :
    SpanTree.kind part ≠ .cte := by
  intro hkind
  rcases mem_fields_iff.1 h with ⟨hfield, -⟩ | ⟨hon, -⟩
  · rw [hkind] at hfield
    cases hfield
  · rw [fieldStep, hkind] at hon
    cases hon

/-- A reference that a region resolves itself shares no byte with a subquery of
the region. -/
theorem not_covers_subquery {part field sub : Node}
    (hordered : SpanTree.Ordered part) (hplain : part.PlainFields)
    (hfield : field ∈ SpanTree.visitStack fieldStep part)
    (hsub : sub ∈ part.subqueries) {byte : ℕ}
    (hbyte : SpanTree.Covers field byte) : ¬SpanTree.Covers sub byte := by
  intro hbyte'
  induction part using SpanTree.induction_children with
  | h part ih =>
      rcases mem_fields_iff.1 hfield with ⟨hkind, -⟩ | ⟨hon, child, hchild, hfield⟩
      · rw [hplain part (SpanTree.self_mem_subtrees part) hkind] at hsub
        cases hsub
      · rcases SpanTree.mem_topmost_iff.1 hsub with
          ⟨hkind, -⟩ | ⟨-, -, child', hchild', hsub⟩
        · rw [fieldStep, of_decide_eq_true hkind] at hon
          cases hon
        · have hord := hordered.of_mem_children hchild
          have hord' := hordered.of_mem_children hchild'
          obtain rfl := hordered.eq_of_covers hchild hchild'
            (hbyte.mono (hord.within (mem_subtrees_of_mem_fields hfield)))
            (hbyte'.mono
              (hord'.within (SpanTree.mem_subtrees_of_mem_topmost hsub)))
          refine ih child hchild hord ?_ hfield hsub
          intro node hnode
          exact hplain node (SpanTree.mem_subtrees_of_child hchild hnode)

/-! ## Sides of set operations -/

theorem ne_nil_of_mem_sidesFrom {side : Option (List Node)}
    {children s : List Node} (h : s ∈ sidesFrom side children)
    (hside : ∀ begun ∈ side, begun ≠ []) : s ≠ [] := by
  induction children generalizing side with
  | nil =>
      rw [sidesFrom, Option.mem_toList] at h
      exact hside s h
  | cons child rest ih =>
      rw [sidesFrom] at h
      split at h
      · rcases List.mem_append.1 h with h | h
        · exact hside s (Option.mem_toList.1 h)
        · refine ih h ?_
          intro begun hbegun
          rw [← Option.some.inj hbegun]
          simp
      · split at h
        · exact ih h hside
        · refine ih h ?_
          intro begun hbegun
          obtain ⟨before, -, rfl⟩ := Option.map_eq_some_iff.1 hbegun
          simp

theorem partsRange_eq {first last : Node} {parts : List Node}
    (hfirst : parts.head? = some first) (hlast : parts.getLast? = some last) :
    partsRange parts = ⟨SpanTree.start first, SpanTree.stop last⟩ := by
  rw [partsRange, hfirst, hlast]

theorem exists_ends {parts : List Node} (h : parts ≠ []) :
    ∃ first ∈ parts, ∃ last ∈ parts,
      partsRange parts = ⟨SpanTree.start first, SpanTree.stop last⟩ :=
  ⟨parts.head h, List.head_mem h, parts.getLast h, List.getLast_mem h,
    partsRange_eq (List.head?_eq_some_head h) (List.getLast?_eq_some_getLast h)⟩

section Sides

variable {op : Node} (hordered : SpanTree.Ordered op)
include hordered

theorem pairwise_sides :
    (setOperationSides op).flatten.Pairwise fun a b =>
      SpanTree.stop a ≤ SpanTree.start b := by
  have hsub : (setOperationSides op).flatten.Sublist op.children :=
    flatten_sidesFrom_sublist none op.children
  exact (hordered op (SpanTree.self_mem_subtrees op)).siblings.sublist hsub

/-- The range of a side has the bytes of its parts. -/
theorem covers_side {side : List Node} (hside : side ∈ setOperationSides op)
    {part : Node} (hpart : part ∈ side) {byte : ℕ}
    (hbyte : SpanTree.Covers part byte) :
    (partsRange side).start ≤ byte ∧ byte < (partsRange side).stop := by
  have hpairs := (List.pairwise_flatten.1 (pairwise_sides hordered)).1 side hside
  have hle : ∀ node ∈ side, SpanTree.start node ≤ SpanTree.stop node := by
    intro node hnode
    have hchild := mem_children_of_mem_side hside hnode
    exact ((hordered.of_mem_children hchild) node
      (SpanTree.self_mem_subtrees node)).start_le_stop
  obtain ⟨first, rest, rfl⟩ :=
    List.exists_cons_of_ne_nil (List.ne_nil_of_mem hpart)
  obtain ⟨before, last, hlast⟩ : ∃ before last,
      first :: rest = before ++ [last] :=
    ⟨_, _, (List.dropLast_append_getLast (by simp)).symm⟩
  have hgetLast : (first :: rest).getLast? = some last := by
    rw [hlast, List.getLast?_append, List.getLast?_singleton, Option.some_or]
  rw [partsRange_eq rfl hgetLast]
  constructor
  · -- the part comes after the first one, or is it
    rcases List.mem_cons.1 hpart with rfl | hrest
    · exact hbyte.1
    · calc SpanTree.start first ≤ SpanTree.stop first := hle first (by simp)
        _ ≤ SpanTree.start part := (List.pairwise_cons.1 hpairs).1 part hrest
        _ ≤ byte := hbyte.1
  · rw [hlast] at hpart hpairs hle
    rcases List.mem_append.1 hpart with hbefore | hpart
    · have hstop := (List.pairwise_append.1 hpairs).2.2 part hbefore last
        (by simp)
      have hlast := hle last (by simp)
      exact lt_of_lt_of_le hbyte.2 (hstop.trans hlast)
    · rw [← List.mem_singleton.1 hpart]
      exact hbyte.2

/-- One side has the byte. -/
theorem side_eq_of_shared_byte {side side' : List Node}
    (hside : side ∈ setOperationSides op)
    (hside' : side' ∈ setOperationSides op) {byte : ℕ}
    (hbyte : (partsRange side).start ≤ byte ∧ byte < (partsRange side).stop)
    (hbyte' : (partsRange side').start ≤ byte ∧
      byte < (partsRange side').stop) : side = side' := by
  refine SpanTree.eq_of_shared_byte (fun side => (partsRange side).start)
    (fun side => (partsRange side).stop) ?_ hside hside' hbyte hbyte'
  refine (List.pairwise_flatten.1 (pairwise_sides hordered)).2.imp_of_mem ?_
  intro a b ha hb hab
  obtain ⟨_, -, last, hlast, hrange⟩ :=
    exists_ends (ne_nil_of_mem_sidesFrom ha (by simp))
  obtain ⟨first, hfirst, _, -, hrange'⟩ :=
    exists_ends (ne_nil_of_mem_sidesFrom hb (by simp))
  rw [hrange, hrange']
  exact hab last hlast first hfirst

end Sides

/-! ## Inner regions -/

theorem mem_innerRegions_iff {region sub : Node} :
    sub ∈ region.innerRegions ↔ sub ∈ region.bodies ∨
      ∃ group ∈ region.groups, ∃ part ∈ group.parts,
        sub ∈ part.partRegions := by
  rw [innerRegions, bodies, groups]
  split
  · simp
  · simp only [List.mem_append, List.mem_flatMap]

theorem mem_subtrees_of_mem_bodiesWithin {region body : Node}
    (h : body ∈ region.bodiesWithin) : body ∈ region.subtrees := by
  obtain ⟨r, hr, hbody⟩ := List.mem_flatMap.1 h
  have hinner := mem_descendants_of_mem_innerRegions
    (mem_innerRegions_iff.2 (.inl hbody))
  exact SpanTree.mem_subtrees_trans (mem_subtrees_of_mem_regionsWithin hr)
    (SpanTree.mem_subtrees_of_mem_descendants hinner)

/-- A node in a part that is no CTE lies in a CTE body only if it does so inside
a region of that part. -/
theorem inCteBody_iff {region : Node} (hordered : region.Ordered)
    {group : Group} (hgroup : group ∈ region.groups) {part field : Node}
    (hpart : part ∈ group.parts) (hkind : SpanTree.kind part ≠ .cte) {byte : ℕ}
    (hbyte : SpanTree.Covers part byte) (hfield : SpanTree.Covers field byte) :
    region.InCteBody field ↔
      ∃ sub ∈ part.partRegions, sub.InCteBody field := by
  constructor
  · rintro ⟨body, hbody, hwithin⟩
    have hcovers : SpanTree.Covers body byte := hfield.mono hwithin
    have hnot : ∀ body ∈ region.bodies, ¬SpanTree.Covers body byte := by
      intro body hbody hcovers
      obtain ⟨cte, hcte, hcovers⟩ :=
        exists_cte_of_covers hordered hbody hcovers
      exact not_covers_cte hordered hgroup hpart hkind hbyte hcte hcovers
    rcases mem_bodiesWithin_iff.1 hbody with hbody | ⟨sub, hsub, hbody⟩
    · exact absurd hcovers (hnot body hbody)
    · have hsubOrdered : SpanTree.Ordered sub :=
        hordered.of_mem_subtrees (SpanTree.mem_subtrees_of_mem_descendants
          (mem_descendants_of_mem_innerRegions hsub))
      have hsubCovers := hcovers.mono
        (hsubOrdered.within (mem_subtrees_of_mem_bodiesWithin hbody))
      rcases mem_innerRegions_iff.1 hsub with
        hsub | ⟨group', hgroup', part', hpart', hsub⟩
      · exact absurd hsubCovers (hnot sub hsub)
      · obtain ⟨host, hhost, hchild⟩ := exists_host hgroup' hpart'
        have hord :=
          (ordered_of_mem_hosts hordered hhost).of_mem_children hchild
        obtain rfl := part_eq_of_covers hordered hgroup hpart hgroup'
          hpart' hbyte (hsubCovers.mono
            (hord.within (mem_subtrees_of_mem_partRegions hsub)))
        exact ⟨sub, hsub, body, hbody, hwithin⟩
  · rintro ⟨sub, hsub, body, hbody, hwithin⟩
    exact ⟨body, mem_bodiesWithin_iff.2 (.inr ⟨sub,
      mem_innerRegions_of_mem_partRegions hgroup hpart hsub, hbody⟩),
      hwithin⟩

/-! ## Statements -/

/-- The ranges of the scopes of all statements. -/
def statementRanges (root : Node) : List ByteRange :=
  (Walker.statements root).flatMap scopeRanges

/-- Does the node lie in the body of a CTE of some statement? -/
def LiesInCteBody (root node : Node) : Prop :=
  ∃ statement ∈ Walker.statements root, statement.InCteBody node

instance (root node : Node) : Decidable (root.LiesInCteBody node) :=
  inferInstanceAs (Decidable (∃ statement ∈ _, InCteBody statement node))

theorem mem_children_of_mem_statements {root statement : Node}
    (h : statement ∈ Walker.statements root) :
    statement ∈ SpanTree.children root :=
  (List.mem_filter.1 (List.mem_filter.1 (List.mem_filter.1 h).1).1).1

/-- One statement reaches the offset. -/
theorem statement_eq_of_reaches {root statement other : Node}
    (hordered : SpanTree.Ordered root)
    (hstatement : statement ∈ Walker.statements root)
    (hother : other ∈ Walker.statements root) {offset byte : ℕ}
    (hcovers : SpanTree.Covers statement byte)
    (hreach : ReachedThrough root.statementRanges offset byte)
    (hstart : SpanTree.start other ≤ offset)
    (hstop : offset ≤ SpanTree.stop other) : other = statement := by
  have hbyte : SpanTree.Covers other byte := by
    refine hreach other.range ?_ hstart hstop
    exact List.mem_flatMap.2 ⟨other, hother, range_mem_scopeRanges other⟩
  exact hordered.eq_of_covers (mem_children_of_mem_statements hother)
    (mem_children_of_mem_statements hstatement) hbyte hcovers

end Node

/-! ## Chains of scopes -/

namespace Scope

variable {offset : ℕ}

theorem chain_eq (offset : ℕ) (scope : Scope) :
    chain offset scope =
      scope :: (descend offset scope.children).getD [] := by
  cases scope
  rfl

theorem descend_eq_none {scopes : List Scope}
    (h : ∀ t ∈ scopes, t.contains offset ≠ true) :
    descend offset scopes = none := by
  rw [descend_eq, List.filter_eq_nil_iff.2 h]
  rfl

/-- Where one scope contains the offset, it is the one found. -/
theorem descend_eq_some {scopes : List Scope} {s : Scope} (hs : s ∈ scopes)
    (hcontains : s.contains offset = true)
    (hunique : ∀ t ∈ scopes, t.contains offset = true → t = s) :
    descend offset scopes = some (chain offset s) := by
  have hmem : s ∈ scopes.filter fun scope => scope.contains offset :=
    List.mem_filter.2 ⟨hs, hcontains⟩
  rw [descend_eq, List.getLast?_eq_some_getLast (List.ne_nil_of_mem hmem)]
  obtain ⟨hlast, hlastContains⟩ :=
    List.mem_filter.1 (List.getLast_mem (List.ne_nil_of_mem hmem))
  rw [hunique _ hlast hlastContains]
  rfl

/-- A scope of a node contains the offsets before and behind its bytes. -/
theorem contains_of_covers {scope : Scope} {node : Node}
    (hrange : scope.range = Node.range node) {byte : ℕ}
    (hcovers : SpanTree.Covers node byte) (hle : byte ≤ offset)
    (hge : offset ≤ byte + 1) : scope.contains offset = true := by
  rw [contains, hrange]
  exact decide_eq_true
    ⟨Nat.le_trans hcovers.1 hle, Nat.le_trans hge hcovers.2⟩

end Scope

/-- The frames of the levels are those of the scopes at the offset, and below them
those that enclose the scope. -/
def Agrees (offset : ℕ) (scope : Scope) (levels outer : List Level) : Prop :=
  levels.map Level.frame =
    (Scope.chain offset scope).reverse.map Scope.frame
      ++ outer.map Level.frame

section Chains

variable {offset : ℕ} {scope : Scope} {level : Level}
  {levels outer : List Level}

theorem agrees_of_descend_eq_none (hframe : scope.frame = level.frame)
    (h : Scope.descend offset scope.children = none) :
    Agrees offset scope (level :: outer) outer := by
  rw [Agrees, Scope.chain_eq, h]
  simp [hframe]

theorem agrees_iff_of_descend_eq_some {s : Scope}
    (hframe : scope.frame = level.frame)
    (h : Scope.descend offset scope.children
      = some (Scope.chain offset s)) :
    Agrees offset scope levels outer ↔
      Agrees offset s levels (level :: outer) := by
  rw [Agrees, Agrees, Scope.chain_eq offset scope, h]
  simp [hframe]

/-- A level that is not the scope's makes the frames differ, whatever the scopes
inside are. -/
theorem not_agrees_of_frame_ne {own : List Level}
    (hframe : scope.frame ≠ level.frame) :
    ¬Agrees offset scope (own ++ level :: outer) outer := by
  intro h
  rw [Agrees, Scope.chain_eq, List.map_append, List.map_cons,
    List.append_cons, List.reverse_cons, List.map_append,
    List.map_singleton] at h
  have hends := List.append_cancel_right h
  exact hframe (List.singleton_inj.1 (List.append_inj_right' hends rfl)).symm

end Chains

end Tempr.Intel
