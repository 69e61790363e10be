import EventTally.Source.Parser

/-! # The grammar of source text

An expression is a number that fits, a symbol, a string, a form, a collection literal, or a quote or pin
sign with an expression; an element of a literal may have a spread sign. A derivation is an expression
with its tokens. No two derivations have the same tokens, even if other tokens follow
(`Derivation.unique`). What a literal stands for is said without its elements being read one by one
(`Literal`), and that is what the parser makes of it (`literal_iff`).
-/

namespace EventTally.Grammar

/-- The atom that a token stands for on its own. Integers must fit 64 bits and floats must not
overflow. -/
def atomOf? (t : Token) : Option Atom :=
  match t.kind with
  | .int => (Decimal.readInt64? t.text.toList).map .int
  | .float => (Decimal.readPlain? t.text.toList).map .float
  | .symbol => some (Reading.symbolAtom t.text)
  | .string => some (Reading.stringAtom t.text)
  | _ => none

mutual

inductive Derivation where
  | atom (t : Token) (a : Atom) (h : atomOf? t = some a)
  | form (opener closer : Token) (hopen : opener.kind = .openParen) (hclose : closer.kind = .closeParen)
      (elems : List Derivation)
  | literal (b : Bracket) (opener closer : Token) (hopen : opener.kind = b.openerKind)
      (hclose : closer.kind = b.closerKind) (elems : List Element)
  | quote (sign : Token) (h : sign.kind = .quote) (d : Derivation)
  | pin (sign : Token) (h : sign.kind = .pin) (d : Derivation)

inductive Element where
  | plain (d : Derivation)
  | spread (sign : Token) (h : sign.kind = .spread) (d : Derivation)

end

mutual

def Derivation.yield : Derivation → List Token
  | .atom t _ _ => [t]
  | .form opener closer _ _ elems => opener :: (yieldAll elems ++ [closer])
  | .literal _ opener closer _ _ elems => opener :: (yieldElements elems ++ [closer])
  | .quote sign _ d => sign :: d.yield
  | .pin sign _ d => sign :: d.yield

def yieldAll : List Derivation → List Token
  | [] => []
  | d :: ds => d.yield ++ yieldAll ds

def Element.yield : Element → List Token
  | .plain d => d.yield
  | .spread sign _ d => sign :: d.yield

def yieldElements : List Element → List Token
  | [] => []
  | e :: es => e.yield ++ yieldElements es

end

mutual

/-- The tree that an expression is sugar for. -/
def Derivation.tree : Derivation → Expr
  | .atom _ a _ => .atom a
  | .form _ _ _ _ elems => .form (treesOf elems)
  | .literal b _ _ _ _ elems => b.desugar (itemsOf elems)
  | .quote _ _ d => d.tree.quoted
  | .pin _ _ d => d.tree.pinned

def treesOf : List Derivation → List Expr
  | [] => []
  | d :: ds => d.tree :: treesOf ds

def Element.item : Element → Item
  | .plain d => ⟨d.tree, false⟩
  | .spread _ _ d => ⟨d.tree, true⟩

def itemsOf : List Element → List Item
  | [] => []
  | e :: es => e.item :: itemsOf es

end

theorem yieldAll_append (ds ds' : List Derivation) :
    yieldAll (ds ++ ds') = yieldAll ds ++ yieldAll ds' := by
  induction ds with
  | nil => rfl
  | cons d ds ih => rw [List.cons_append, yieldAll, yieldAll, ih, List.append_assoc]

theorem yieldElements_append (es es' : List Element) :
    yieldElements (es ++ es') = yieldElements es ++ yieldElements es' := by
  induction es with
  | nil => rfl
  | cons e es ih => rw [List.cons_append, yieldElements, yieldElements, ih, List.append_assoc]

theorem treesOf_eq_map (ds : List Derivation) : treesOf ds = ds.map Derivation.tree := by
  induction ds with
  | nil => rfl
  | cons d ds ih => rw [treesOf, ih, List.map_cons]

theorem itemsOf_eq_map (es : List Element) : itemsOf es = es.map Element.item := by
  induction es with
  | nil => rfl
  | cons e es ih => rw [itemsOf, ih, List.map_cons]

/-- What a token does in the grammar, by its kind. -/
inductive Role where
  | atom
  | form
  | literal (b : Bracket)
  | quote
  | pin
  | spread
  | closer
  | none
  deriving DecidableEq

def role : TokenKind → Role
  | .int | .float | .symbol | .string => .atom
  | .openParen => .form
  | .openBracket => .literal .list
  | .openBrace => .literal .tuple
  | .openHashBrace => .literal .dict
  | .openHashBracket => .literal .set
  | .quote => .quote
  | .pin => .pin
  | .spread => .spread
  | .closeParen | .closeBracket | .closeBrace => .closer
  | .error | .eof | .blank | .comment => .none

theorem role_openerKind (b : Bracket) : role b.openerKind = .literal b := by
  cases b <;> rfl

theorem role_closerKind (b : Bracket) : role b.closerKind = .closer := by
  cases b <;> rfl

theorem role_of_atomOf? {t : Token} {a : Atom} (h : atomOf? t = some a) : role t.kind = .atom := by
  unfold atomOf? at h
  split at h
  · next hk => rw [hk]; rfl
  · next hk => rw [hk]; rfl
  · next hk => rw [hk]; rfl
  · next hk => rw [hk]; rfl
  · cases h

/-- The role of the first token of an expression tells which rule the expression is made by. -/
def Derivation.role : Derivation → Role
  | .atom .. => .atom
  | .form .. => .form
  | .literal b .. => .literal b
  | .quote .. => .quote
  | .pin .. => .pin

theorem Derivation.yield_eq_cons (d : Derivation) :
    ∃ t ts, d.yield = t :: ts ∧ Grammar.role t.kind = d.role := by
  cases d with
  | atom t a h => exact ⟨t, [], rfl, role_of_atomOf? h⟩
  | form opener closer hopen hclose elems => exact ⟨opener, _, rfl, by rw [hopen]; rfl⟩
  | literal b opener closer hopen hclose elems => exact ⟨opener, _, rfl, by rw [hopen, role_openerKind]; rfl⟩
  | quote sign h d => exact ⟨sign, _, rfl, by rw [h]; rfl⟩
  | pin sign h d => exact ⟨sign, _, rfl, by rw [h]; rfl⟩

theorem Derivation.role_eq_of_yield {d d' : Derivation} {x y : List Token}
    (h : d.yield ++ x = d'.yield ++ y) : d.role = d'.role := by
  obtain ⟨t, ts, hyield, hrole⟩ := d.yield_eq_cons
  obtain ⟨t', ts', hyield', hrole'⟩ := d'.yield_eq_cons
  rw [hyield, hyield'] at h
  rw [← hrole, ← hrole', (List.cons.inj h).1]

theorem Derivation.yield_ne_of_role {d : Derivation} {t : Token} {x y : List Token}
    (ht : Grammar.role t.kind = .closer ∨ Grammar.role t.kind = .spread) : d.yield ++ x ≠ t :: y := by
  intro h
  obtain ⟨t', ts, hyield, hrole⟩ := d.yield_eq_cons
  rw [hyield] at h
  rw [← (List.cons.inj h).1, hrole] at ht
  cases d <;> simp [Derivation.role] at ht

theorem Element.yield_ne_closer {e : Element} {t : Token} {x y : List Token}
    (ht : role t.kind = .closer) : e.yield ++ x ≠ t :: y := by
  cases e with
  | plain d => exact Derivation.yield_ne_of_role (Or.inl ht)
  | spread sign hs d =>
    intro h
    rw [← (List.cons.inj h).1, hs] at ht
    cases ht

mutual

/-- An expression is known from the tokens that start with it. -/
theorem Derivation.unique (d d' : Derivation) {x y : List Token} (h : d.yield ++ x = d'.yield ++ y) :
    d = d' ∧ x = y := by
  have hrole := Derivation.role_eq_of_yield h
  match d with
  | .atom t a ha =>
    cases d' with
    | atom t' a' ha' =>
      obtain ⟨rfl, rfl⟩ := List.cons.inj h
      obtain rfl : a = a' := Option.some.inj (ha.symm.trans ha')
      exact ⟨rfl, rfl⟩
    | _ => cases hrole
  | .form opener closer hopen hclose elems =>
    cases d' with
    | form opener' closer' hopen' hclose' elems' =>
      obtain ⟨rfl, hrest⟩ := List.cons.inj h
      simp only [List.append_eq, List.append_assoc, List.singleton_append] at hrest
      obtain ⟨rfl, rfl, rfl⟩ :=
        unique_all elems elems' (by rw [hclose]; rfl) (by rw [hclose']; rfl) hrest
      exact ⟨rfl, rfl⟩
    | _ => cases hrole
  | .literal b opener closer hopen hclose elems =>
    cases d' with
    | literal b' opener' closer' hopen' hclose' elems' =>
      obtain ⟨rfl, hrest⟩ := List.cons.inj h
      simp only [List.append_eq, List.append_assoc, List.singleton_append] at hrest
      obtain ⟨rfl, rfl, rfl⟩ := unique_elements elems elems' (by rw [hclose, role_closerKind])
        (by rw [hclose', role_closerKind]) hrest
      cases hrole
      exact ⟨rfl, rfl⟩
    | _ => cases hrole
  | .quote sign hs d =>
    cases d' with
    | quote sign' hs' d' =>
      obtain ⟨rfl, hrest⟩ := List.cons.inj h
      obtain ⟨rfl, rfl⟩ := Derivation.unique d d' hrest
      exact ⟨rfl, rfl⟩
    | _ => cases hrole
  | .pin sign hs d =>
    cases d' with
    | pin sign' hs' d' =>
      obtain ⟨rfl, hrest⟩ := List.cons.inj h
      obtain ⟨rfl, rfl⟩ := Derivation.unique d d' hrest
      exact ⟨rfl, rfl⟩
    | _ => cases hrole

theorem unique_all (ds ds' : List Derivation) {c c' : Token} (hc : role c.kind = .closer)
    (hc' : role c'.kind = .closer) {x y : List Token}
    (h : yieldAll ds ++ c :: x = yieldAll ds' ++ c' :: y) : ds = ds' ∧ c = c' ∧ x = y := by
  match ds, ds' with
  | [], [] =>
    obtain ⟨rfl, rfl⟩ := List.cons.inj h
    exact ⟨rfl, rfl, rfl⟩
  | [], d' :: ds' =>
    rw [yieldAll, yieldAll, List.append_assoc] at h
    exact absurd h.symm (Derivation.yield_ne_of_role (Or.inl hc))
  | d :: ds, [] =>
    rw [yieldAll, yieldAll, List.append_assoc] at h
    exact absurd h (Derivation.yield_ne_of_role (Or.inl hc'))
  | d :: ds, d' :: ds' =>
    rw [yieldAll, yieldAll, List.append_assoc, List.append_assoc] at h
    obtain ⟨rfl, hrest⟩ := Derivation.unique d d' h
    obtain ⟨rfl, rfl, rfl⟩ := unique_all ds ds' hc hc' hrest
    exact ⟨rfl, rfl, rfl⟩

theorem Element.unique (e e' : Element) {x y : List Token} (h : e.yield ++ x = e'.yield ++ y) :
    e = e' ∧ x = y := by
  match e, e' with
  | .plain d, .plain d' =>
    obtain ⟨rfl, rfl⟩ := Derivation.unique d d' h
    exact ⟨rfl, rfl⟩
  | .plain d, .spread sign hs d' =>
    exact absurd h (Derivation.yield_ne_of_role (Or.inr (by rw [hs]; rfl)))
  | .spread sign hs d, .plain d' =>
    exact absurd h.symm (Derivation.yield_ne_of_role (Or.inr (by rw [hs]; rfl)))
  | .spread sign hs d, .spread sign' hs' d' =>
    obtain ⟨rfl, hrest⟩ := List.cons.inj h
    obtain ⟨rfl, rfl⟩ := Derivation.unique d d' hrest
    exact ⟨rfl, rfl⟩

theorem unique_elements (es es' : List Element) {c c' : Token} (hc : role c.kind = .closer)
    (hc' : role c'.kind = .closer) {x y : List Token}
    (h : yieldElements es ++ c :: x = yieldElements es' ++ c' :: y) : es = es' ∧ c = c' ∧ x = y := by
  match es, es' with
  | [], [] =>
    obtain ⟨rfl, rfl⟩ := List.cons.inj h
    exact ⟨rfl, rfl, rfl⟩
  | [], e' :: es' =>
    rw [yieldElements, yieldElements, List.append_assoc] at h
    exact absurd h.symm (Element.yield_ne_closer hc)
  | e :: es, [] =>
    rw [yieldElements, yieldElements, List.append_assoc] at h
    exact absurd h (Element.yield_ne_closer hc')
  | e :: es, e' :: es' =>
    rw [yieldElements, yieldElements, List.append_assoc, List.append_assoc] at h
    obtain ⟨rfl, hrest⟩ := Element.unique e e' h
    obtain ⟨rfl, rfl, rfl⟩ := unique_elements es es' hc hc' hrest
    exact ⟨rfl, rfl, rfl⟩

end

theorem prefix_or_prefix {ds ds' : List Derivation} {x y : List Token}
    (h : yieldAll ds ++ x = yieldAll ds' ++ y) : ds <+: ds' ∨ ds' <+: ds := by
  induction ds generalizing ds' with
  | nil => exact Or.inl List.nil_prefix
  | cons d ds ih =>
    cases ds' with
    | nil => exact Or.inr List.nil_prefix
    | cons d' ds' =>
      rw [yieldAll, yieldAll, List.append_assoc, List.append_assoc] at h
      obtain ⟨rfl, hrest⟩ := Derivation.unique d d' h
      exact (ih hrest).imp (List.prefix_cons_inj d).mpr (List.prefix_cons_inj d).mpr

theorem eq_of_length {ds ds' : List Derivation} {x y : List Token}
    (h : yieldAll ds ++ x = yieldAll ds' ++ y) (hlength : ds.length = ds'.length) : ds = ds' := by
  rcases prefix_or_prefix h with hfront | hfront
  · exact hfront.eq_of_length hlength
  · exact (hfront.eq_of_length hlength.symm).symm

theorem eq_nil_of_yieldAll {ds : List Derivation} (h : yieldAll ds = []) : ds = [] := by
  cases ds with
  | nil => rfl
  | cons d ds =>
    obtain ⟨t, ts, hyield, -⟩ := d.yield_eq_cons
    rw [yieldAll, hyield] at h
    cases h

theorem eq_of_front {ds ds' : List Derivation} (h : yieldAll ds = yieldAll ds') (hfront : ds <+: ds') :
    ds = ds' := by
  obtain ⟨more, hmore⟩ := hfront
  rw [← hmore, yieldAll_append, List.self_eq_append_right] at h
  rw [← hmore, eq_nil_of_yieldAll h, List.append_nil]

theorem yieldAll_injective {ds ds' : List Derivation} (h : yieldAll ds = yieldAll ds') : ds = ds' := by
  rcases prefix_or_prefix (congrArg (· ++ []) h) with hfront | hfront
  · exact eq_of_front h hfront
  · exact (eq_of_front h.symm hfront).symm

def plainItems (es : List Expr) : List Item := es.map (⟨·, false⟩)

/-- The elements of a literal, those of spread `(kind …)` forms in their place. -/
def flatten (b : Bracket) (items : List Item) : List Item :=
  items.flatMap fun i =>
    match i with
    | ⟨e, false⟩ => [⟨e, false⟩]
    | ⟨e, true⟩ =>
      match e.untag? b.tag with
      | some elems => plainItems elems
      | none => [⟨e, true⟩]

/-- The children of a literal with spreads: every run of plain elements, as long as it goes, is one
chunk, and the spread expressions stand between the chunks in order. -/
inductive Chunked (b : Bracket) : List Item → List Expr → Prop
  | nil : Chunked b [] []
  | run {run : List Expr} {rest : List Item} {cs : List Expr} (hrun : run ≠ [])
      (hend : ∀ i ∈ rest.head?, i.spread = true) (h : Chunked b rest cs) :
      Chunked b (plainItems run ++ rest) (Expr.tagged b.tag run :: cs)
  | spread (e : Expr) {rest : List Item} {cs : List Expr} (h : Chunked b rest cs) :
      Chunked b (⟨e, true⟩ :: rest) (e :: cs)

/-- The tree of a literal: `(kind e…)` if no spread is left, else `(into_kind c…)` with chunks. -/
inductive Literal (b : Bracket) (items : List Item) : Expr → Prop
  | plain (h : ∀ i ∈ flatten b items, i.spread = false) :
      Literal b items (Expr.tagged b.tag ((flatten b items).map Item.expr))
  | spread {cs : List Expr} (h : ∃ i ∈ flatten b items, i.spread = true)
      (hchunks : Chunked b (flatten b items) cs) : Literal b items (Expr.tagged b.intoTag cs)

variable {b : Bracket} {items : List Item}

theorem flatten_plain (e : Expr) : flatten b (⟨e, false⟩ :: items) = ⟨e, false⟩ :: flatten b items := rfl

theorem flatten_merged {e : Expr} {elems : List Expr} (h : e.untag? b.tag = some elems) :
    flatten b (⟨e, true⟩ :: items) = plainItems elems ++ flatten b items := by
  simp [flatten, h]

theorem flatten_spread {e : Expr} (h : e.untag? b.tag = none) :
    flatten b (⟨e, true⟩ :: items) = ⟨e, true⟩ :: flatten b items := by
  simp [flatten, h]

theorem plainItems_append (es es' : List Expr) :
    plainItems (es ++ es') = plainItems es ++ plainItems es' := List.map_append

theorem not_spread_of_mem {es : List Expr} {i : Item} (h : i ∈ plainItems es) : i.spread = false := by
  obtain ⟨e, -, rfl⟩ := List.mem_map.mp h
  rfl

theorem Chunked.chunk (rest : List Item) {cs : List Expr} (run : List Expr)
    (hend : ∀ i ∈ rest.head?, i.spread = true) (h : Chunked b rest cs) :
    Chunked b (plainItems run ++ rest) (b.chunk run ++ cs) := by
  cases run with
  | nil => exact h
  | cons e run => exact .run (List.cons_ne_nil e run) hend h

theorem chunked_children (b : Bracket) (run : List Expr) (items : List Item) :
    Chunked b (plainItems run ++ flatten b items) (b.children run items).1 := by
  fun_induction Bracket.children b run items with
  | case1 run => simpa [flatten] using Chunked.chunk (b := b) [] run (by simp) .nil
  | case2 run e items ih =>
    rw [flatten_plain]
    rwa [plainItems_append, List.append_assoc] at ih
  | case3 run e items elems huntag ih =>
    rw [flatten_merged huntag]
    rwa [plainItems_append, List.append_assoc] at ih
  | case4 run e items huntag ih =>
    rw [flatten_spread huntag]
    exact .chunk _ run (by simp) (.spread e ih)

theorem children_snd (b : Bracket) (run : List Expr) (items : List Item) :
    (b.children run items).2 = true ↔ ∃ i ∈ flatten b items, i.spread = true := by
  fun_induction Bracket.children b run items with
  | case1 run => simp [flatten]
  | case2 run e items ih => simpa [flatten_plain] using ih
  | case3 run e items elems huntag ih =>
    rw [ih, flatten_merged huntag]
    constructor
    · rintro ⟨i, hi, hspread⟩
      exact ⟨i, List.mem_append_right _ hi, hspread⟩
    · rintro ⟨i, hi, hspread⟩
      rcases List.mem_append.mp hi with hi | hi
      · rw [not_spread_of_mem hi] at hspread
        cases hspread
      · exact ⟨i, hi, hspread⟩
  | case4 run e items huntag ih => simp [flatten_spread huntag]

theorem merged_eq (h : ∀ i ∈ flatten b items, i.spread = false) :
    b.merged items = (flatten b items).map Item.expr := by
  fun_induction Bracket.merged b items with
  | case1 => rfl
  | case2 e items ih =>
    rw [flatten_plain] at h ⊢
    rw [ih fun i hi => h i (List.mem_cons_of_mem _ hi), List.map_cons]
  | case3 e items ih =>
    cases huntag : e.untag? b.tag with
    | some elems =>
      rw [flatten_merged huntag] at h ⊢
      rw [ih fun i hi => h i (List.mem_append_right _ hi), List.map_append]
      simp [plainItems, Function.comp_def]
    | none =>
      rw [flatten_spread huntag] at h
      cases h _ List.mem_cons_self

theorem literal_desugar (b : Bracket) (items : List Item) : Literal b items (b.desugar items) := by
  have hchunks := chunked_children b [] items
  have hflag := children_snd b [] items
  unfold Bracket.desugar
  split
  · next children heq =>
    rw [heq] at hchunks hflag
    exact .spread (hflag.mp rfl) hchunks
  · next children heq =>
    rw [heq] at hflag
    have hplain : ∀ i ∈ flatten b items, i.spread = false := by
      refine fun i hi => Bool.eq_false_iff.mpr fun hspread => ?_
      cases hflag.mpr ⟨i, hi, hspread⟩
    rw [merged_eq hplain]
    exact .plain hplain

-- The runs are as long as they go, so there is one way to cut elements into chunks.

theorem run_unique {run run' : List Expr} {rest rest' : List Item}
    (hend : ∀ i ∈ rest.head?, i.spread = true) (hend' : ∀ i ∈ rest'.head?, i.spread = true)
    (h : plainItems run ++ rest = plainItems run' ++ rest') : run = run' ∧ rest = rest' := by
  have hnot {rest : List Item} {e : Expr} {is : List Item} (hend : ∀ i ∈ rest.head?, i.spread = true) :
      rest ≠ ⟨e, false⟩ :: is := by
    rintro rfl
    cases hend _ rfl
  induction run generalizing run' with
  | nil =>
    cases run' with
    | nil => exact ⟨rfl, h⟩
    | cons e' run' => exact absurd h (hnot hend)
  | cons e run ih =>
    cases run' with
    | nil => exact absurd h.symm (hnot hend')
    | cons e' run' =>
      obtain ⟨he, hrest⟩ := List.cons.inj h
      obtain ⟨rfl, rfl⟩ := ih hrest
      cases he
      exact ⟨rfl, rfl⟩

theorem Chunked.unique {is : List Item} {cs cs' : List Expr} (h : Chunked b is cs)
    (h' : Chunked b is cs') : cs = cs' := by
  induction h generalizing cs' with
  | nil =>
    generalize hnil : ([] : List Item) = is at h'
    cases h' with
    | nil => rfl
    | run hrun => exact absurd (List.append_eq_nil_iff.mp hnil.symm).1 (by simpa [plainItems] using hrun)
    | spread e => cases hnil
  | @run run rest cs hrun hend _ ih =>
    generalize heq : plainItems run ++ rest = is at h'
    cases h' with
    | nil => exact absurd (List.append_eq_nil_iff.mp heq).1 (by simpa [plainItems] using hrun)
    | run hrun' hend' h' =>
      obtain ⟨rfl, rfl⟩ := run_unique hend hend' heq
      rw [ih h']
    | spread e h' =>
      cases run with
      | nil => exact absurd rfl hrun
      | cons e' run => cases heq
  | @spread e rest cs _ ih =>
    generalize heq : (⟨e, true⟩ :: rest : List Item) = is at h'
    cases h' with
    | nil => cases heq
    | @run run rest' cs' hrun =>
      cases run with
      | nil => exact absurd rfl hrun
      | cons e' run => cases heq
    | spread e' h' =>
      cases heq
      rw [ih h']

theorem Literal.unique {e e' : Expr} (h : Literal b items e) (h' : Literal b items e') : e = e' := by
  cases h with
  | plain hplain =>
    cases h' with
    | plain _ => rfl
    | spread hspread _ =>
      obtain ⟨i, hi, hi'⟩ := hspread
      rw [hplain i hi] at hi'
      cases hi'
  | spread hspread hchunks =>
    cases h' with
    | plain hplain =>
      obtain ⟨i, hi, hi'⟩ := hspread
      rw [hplain i hi] at hi'
      cases hi'
    | spread _ hchunks' => rw [hchunks.unique hchunks']

/-- The parser makes of a literal what it stands for. -/
theorem literal_iff {e : Expr} : Literal b items e ↔ e = b.desugar items := by
  constructor
  · exact fun h => h.unique (literal_desugar b items)
  · rintro rfl
    exact literal_desugar b items

end EventTally.Grammar
