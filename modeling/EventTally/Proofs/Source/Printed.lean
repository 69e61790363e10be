import EventTally.Proofs.Datum.Literal
import EventTally.Proofs.Source.RoundTrip

/-! # Reading printed data

The representation of a datum, on one line or indented, is the text of a literal. The literal is that
of the same datum with its dicts and sets in the order in which they were written (`exists_reading`).
-/

namespace EventTally

namespace Reading

variable {keep : Reading → Prop} {r r' r'' : Reading} {cs ds gap : List Char}

theorem Goes.blanks {bs : List Char} (hbs : ∀ c ∈ bs, Text.isBlank c = true) (hopens : Opens cs)
    (h : Goes keep cs r r') : Goes keep (bs ++ cs) r r' := by
  cases bs with
  | nil => exact h
  | cons c bs => exact h.gap ⟨by simp, hbs⟩ hopens

theorem Goes.append_blanks {bs : List Char} (hbs : ∀ c ∈ bs, Text.isBlank c = true)
    (hopens : Opens ds) (hstop : ∀ c ∈ ds.head?, Token.isStop c = true) (h : Goes keep cs r r')
    (h' : Goes keep ds r' r'') : Goes keep (cs ++ (bs ++ ds)) r r'' := by
  cases bs with
  | nil =>
    obtain ⟨c, ds, rfl, -⟩ := hopens
    exact h.append (hstop c rfl) h'
  | cons c bs => exact h.append_gap ⟨by simp, hbs⟩ hopens h'

end Reading

open Reading

/-- The state in which the elements of a literal have been read. -/
def Bracket.inside (b : Bracket) (r : Reading) (es : List Expr) : Reading :=
  r.enter (.literal b (es.map fun e => ⟨e, false⟩).reverse none)

/-- The text adds trees to the elements of a literal. -/
structure Bracket.Adds (b : Bracket) (text : List Char) (es : List Expr) : Prop where
  opens : Opens text
  goes : ∀ (r : Reading) done, Goes (·.trees = r.trees) text (b.inside r done) (b.inside r (done ++ es))

structure ReadsAs (text : List Char) (e : Expr) : Prop where
  opens : Opens text
  goes : ∀ r : Reading, Goes (·.trees = r.trees) text r (r.add e)

theorem Reads.readsAs {e : Expr} (h : Reads e) : ReadsAs e.serialize.toList e := ⟨h.opens, h.goes⟩

namespace Bracket

theorem Adds.of_readsAs (b : Bracket) {text : List Char} {e : Expr} (h : ReadsAs text e) :
    b.Adds text [e] := by
  refine ⟨h.opens, fun r done => ?_⟩
  have hgoes := h.goes (b.inside r done)
  have hadd : (b.inside r done).add e = b.inside r (done ++ [e]) := by
    simp [inside, Reading.enter, Reading.add, Reading.push]
  rwa [hadd] at hgoes

theorem Adds.append {b : Bracket} {text text' gap : List Char} {es es' : List Expr}
    (hgap : Token.IsGap gap) (h : b.Adds text es) (h' : b.Adds text' es') :
    b.Adds (text ++ (gap ++ text')) (es ++ es') := by
  refine ⟨h.opens.append _, fun r done => ?_⟩
  rw [← List.append_assoc done]
  exact (h.goes r done).append_gap hgap h'.opens (h'.goes r (done ++ es))

theorem readsAs_literal (b : Bracket) {parts : List (List Char × List Expr)}
    (h : ∀ p ∈ parts, b.Adds p.1 p.2) {lead gap trail : List Char} (hgap : Token.IsGap gap)
    (hlead : ∀ c ∈ lead, Text.isBlank c = true) (htrail : ∀ c ∈ trail, Text.isBlank c = true) :
    ReadsAs (b.opener.toList ++
        (lead ++ (List.intercalate gap (parts.map Prod.fst) ++ (trail ++ b.closer.toList))))
      (.tagged b.tag (parts.flatMap Prod.snd)) := by
  refine ⟨b.opens_opener.append _, fun r => b.goes_opener ?_⟩
  have hend : ∀ es, Goes (·.trees = r.trees) b.closer.toList (b.inside r es)
      (r.add (.tagged b.tag es)) := by
    intro es
    have hclose := b.goes_closer r (es.map fun e => ⟨e, false⟩).reverse
    rwa [List.reverse_reverse, b.desugar_plain] at hclose
  obtain ⟨c, hc, hstop, hsolid⟩ := b.closer_eq
  have hopens : Opens b.closer.toList := ⟨c, [], hc, hsolid⟩
  obtain ⟨hseq, hseqOpens⟩ := Goes.sequence hgap Prod.fst (b.inside r)
    (fun done p => done ++ p.2) (fun p hp => ⟨(h p hp).opens, (h p hp).goes r⟩) []
  rw [List.foldl_append_eq_append] at hseq
  cases parts with
  | nil =>
    rw [List.map_nil, List.intercalate_nil, List.nil_append, ← List.append_assoc]
    refine (hend []).blanks ?_ hopens
    exact fun c hc => (List.mem_append.mp hc).elim (hlead c) (htrail c)
  | cons p parts =>
    have hbody := hseq.append_blanks htrail hopens (fun d hd => by simp_all) (hend _)
    exact hbody.blanks hlead ((hseqOpens (by simp)).append _)

theorem blank_spaces (n : Nat) : ∀ c ∈ (Datum.spaces n).toList, Text.isBlank c = true := by
  intro c hc
  rw [Datum.spaces, String.toList_ofList] at hc
  rw [List.eq_of_mem_replicate hc]
  rfl

theorem isGap_spaces {n : Nat} (hn : 0 < n) : Token.IsGap (Datum.spaces n).toList := by
  obtain ⟨n, rfl⟩ := Nat.exists_eq_add_of_le' hn
  refine ⟨?_, blank_spaces _⟩
  rw [Datum.spaces, String.toList_ofList]
  exact List.cons_ne_nil _ _

theorem toList_join_map (lead : String) (texts : List String) (h : texts ≠ []) :
    (String.join (texts.map (lead ++ ·))).toList =
      lead.toList ++ List.intercalate lead.toList (texts.map String.toList) := by
  induction texts with
  | nil => exact absurd rfl h
  | cons t texts ih =>
    rw [List.map_cons, String.join_cons, String.toList_append, String.toList_append,
      List.append_assoc]
    cases texts with
    | nil => simp
    | cons u texts =>
      rw [ih (by simp), List.map_cons, List.map_cons, List.map_cons, List.intercalate_cons_cons,
        List.append_assoc]

theorem readsAs_bracketed (b : Bracket) (indent : Int) {parts : List (String × List Expr)}
    (h : ∀ p ∈ parts, b.Adds p.1.toList p.2) :
    ReadsAs (Datum.bracketed b.opener b.closer indent (parts.map Prod.fst)).toList
      (.tagged b.tag (parts.flatMap Prod.snd)) := by
  have hparts : ∀ p ∈ parts.map (fun p => (p.1.toList, p.2)), b.Adds p.1 p.2 := by
    intro p hp
    obtain ⟨q, hq, rfl⟩ := List.mem_map.mp hp
    exact h q hq
  have hliteral := fun gap lead trail => @b.readsAs_literal _ hparts lead gap trail
  simp only [List.map_map, List.flatMap_map, Function.comp_def] at hliteral
  have htexts : (parts.map Prod.fst).map String.toList = parts.map fun p => p.1.toList := by
    rw [List.map_map]
    rfl
  have hspace : Token.IsGap [' '] := Token.isGap_singleton rfl
  unfold Datum.bracketed
  split
  · next hempty =>
    obtain rfl : parts = [] := by simpa using hempty
    simpa using hliteral [' '] [] [] hspace (by simp) (by simp)
  · next hne =>
    have hne : parts.map Prod.fst ≠ [] := by simpa using hne
    split
    · rw [String.toList_append, String.toList_append, toList_spaced, htexts, List.append_assoc]
      simpa using hliteral [' '] [] [] hspace (by simp) (by simp)
    · have hnewline : Text.isBlank '\n' = true := rfl
      have hblank (n : Nat) : ∀ c ∈ ("\n" ++ Datum.spaces n).toList, Text.isBlank c = true := by
        rw [String.toList_append]
        exact List.forall_mem_cons.mpr ⟨hnewline, blank_spaces n⟩
      have hgap (n : Nat) : Token.IsGap ("\n" ++ Datum.spaces n).toList := by
        refine ⟨?_, hblank n⟩
        rw [String.toList_append]
        exact List.cons_ne_nil _ _
      have hlayout := hliteral _ _ _ (hgap (2 * (indent.toNat + 1))) (hblank (2 * (indent.toNat + 1)))
        (hblank (2 * indent.toNat))
      dsimp only
      generalize "\n" ++ Datum.spaces (2 * (indent.toNat + 1)) = lead at hlayout ⊢
      simp only [String.toList_append, toList_join_map _ _ hne, htexts, List.append_assoc] at hlayout ⊢
      exact hlayout

end Bracket

namespace Expr

mutual

/-- The literal of a datum, its elements in the order in which they are kept. -/
def ofDatum : Datum → Expr
  | .atom a => .atom a
  | .list ds => .tagged Bracket.list.tag (ofData ds)
  | .tuple ds => .tagged Bracket.tuple.tag (ofData ds)
  | .set ds => .tagged Bracket.set.tag (ofData ds)
  | .dict es => .tagged Bracket.dict.tag (ofEntries es)
  | .builtin name | .closure _ name _ _ => .sym name

def ofData : List Datum → List Expr
  | [] => []
  | d :: ds => ofDatum d :: ofData ds

def ofEntries : List (Datum × Datum) → List Expr
  | [] => []
  | (k, v) :: es => ofDatum k :: ofDatum v :: ofEntries es

end

theorem ofData_eq_map (ds : List Datum) : ofData ds = ds.map ofDatum := by
  induction ds with
  | nil => rw [ofData]; rfl
  | cons d ds ih => rw [ofData, ih, List.map_cons]

theorem ofEntries_eq_flatMap (es : List (Datum × Datum)) :
    ofEntries es = es.flatMap fun e => [ofDatum e.1, ofDatum e.2] := by
  induction es with
  | nil => rw [ofEntries]; rfl
  | cons e es ih =>
    obtain ⟨k, v⟩ := e
    rw [ofEntries, ih, List.flatMap_cons]
    rfl

end Expr

open Datum (Identical Literal)

namespace Datum

theorem reprs_eq_map (indent : Int) (ds : List Datum) : reprs indent ds = ds.map (repr indent) := by
  induction ds with
  | nil => rw [reprs]; rfl
  | cons d ds ih => rw [reprs, ih, List.map_cons]

theorem reprEntries_eq_map (indent : Int) (es : List (Datum × Datum)) :
    reprEntries indent es = es.map fun e => (repr noIndent e.1, repr indent e.2) := by
  induction es with
  | nil => rw [reprEntries]; rfl
  | cons e es ih =>
    obtain ⟨k, v⟩ := e
    rw [reprEntries, ih, List.map_cons]

theorem exists_sorted {α β : Type} (text : α → β) (le : β → β → Bool) (xs : List α) :
    ∃ ys, xs.Perm ys ∧ (xs.map text).mergeSort le = ys.map text := by
  have hcomp : Relation.Comp (· = List.map text ·) List.Perm ((xs.map text).mergeSort le) xs := by
    rw [List.eq_map_comp_perm]
    exact List.mergeSort_perm _ _
  obtain ⟨ys, hys, horder⟩ := hcomp
  exact ⟨ys, horder.symm, hys⟩

theorem le_foldl_max {α : Type} (width : α → Nat) (xs : List α) (n : Nat) :
    n ≤ (xs.map width).foldl max n ∧ ∀ x ∈ xs, width x ≤ (xs.map width).foldl max n := by
  induction xs generalizing n with
  | nil => simp
  | cons x xs ih =>
    obtain ⟨hle, hall⟩ := ih (max n (width x))
    refine ⟨(Nat.le_max_left _ _).trans hle, List.forall_mem_cons.mpr ⟨?_, hall⟩⟩
    exact (Nat.le_max_right _ _).trans hle

theorem exists_gaps (indent : Int) (entries : List (String × String)) :
    ∃ gap : String × String → String, (∀ e ∈ entries, Token.IsGap (gap e).toList) ∧
      alignEntries indent entries = entries.map fun e => e.1 ++ gap e ++ e.2 := by
  by_cases hindent : indent < 0
  · have hspace : Token.IsGap " ".toList :=
      (show " ".toList = [' '] from rfl) ▸ Token.isGap_singleton rfl
    refine ⟨fun _ => " ", fun _ _ => hspace, ?_⟩
    unfold alignEntries
    simp only [if_pos hindent]
  · refine ⟨fun e => spaces (1 + (entries.map fun e => Text.displayWidth e.1).foldl max 0 -
      Text.displayWidth e.1), fun e he => Bracket.isGap_spaces ?_, ?_⟩
    · have hwidest := (le_foldl_max (fun e : String × String => Text.displayWidth e.1) entries 0).2 e he
      omega
    · unfold alignEntries
      simp only [if_neg hindent]

end Datum

theorem Bracket.Adds.entry (b : Bracket) {key value gap : String} {k v : Expr}
    (hgap : Token.IsGap gap.toList) (hkey : ReadsAs key.toList k) (hvalue : ReadsAs value.toList v) :
    b.Adds (key ++ gap ++ value).toList [k, v] := by
  rw [String.toList_append, String.toList_append, List.append_assoc]
  exact (Adds.of_readsAs b hkey).append hgap (Adds.of_readsAs b hvalue)

theorem exists_forall₂ {α β : Type} {R : α → β → Prop} {xs : List α} (h : ∀ x ∈ xs, ∃ y, R x y) :
    ∃ ys, List.Forall₂ R xs ys := by
  induction xs with
  | nil => exact ⟨[], .nil⟩
  | cons x xs ih =>
    obtain ⟨⟨y, hy⟩, hxs⟩ := List.forall_mem_cons.mp h
    obtain ⟨ys, hys⟩ := ih hxs
    exact ⟨y :: ys, .cons hy hys⟩

theorem readsAs_elements (b : Bracket) (indent : Int) {text : Datum → String} {ds ds' : List Datum}
    (h : List.Forall₂ (fun d d' => ReadsAs (text d).toList (.ofDatum d')) ds ds') :
    ReadsAs (Datum.bracketed b.opener b.closer indent (ds.map text)).toList
      (.tagged b.tag (Expr.ofData ds')) := by
  have hparts : ∃ parts : List (String × List Expr), parts.map Prod.fst = ds.map text ∧
      parts.flatMap Prod.snd = ds'.map Expr.ofDatum ∧ ∀ p ∈ parts, b.Adds p.1.toList p.2 := by
    induction h with
    | nil => exact ⟨[], rfl, rfl, by simp⟩
    | @cons d d' ds ds' hd _ ih =>
      obtain ⟨parts, htexts, htrees, hparts⟩ := ih
      refine ⟨(text d, [.ofDatum d']) :: parts, by simp [htexts], by simp [htrees], ?_⟩
      exact List.forall_mem_cons.mpr ⟨.of_readsAs b hd, hparts⟩
  obtain ⟨parts, htexts, htrees, hparts⟩ := hparts
  have hreads := b.readsAs_bracketed indent hparts
  rwa [htexts, htrees, ← Expr.ofData_eq_map] at hreads

theorem readsAs_entries (b : Bracket) (indent : Int) {text : Datum × Datum → String × String}
    {gap : String × String → String} {es es' : List (Datum × Datum)}
    (hgap : ∀ e ∈ es, Token.IsGap (gap (text e)).toList)
    (h : List.Forall₂ (fun e e' => ReadsAs (text e).1.toList (.ofDatum e'.1) ∧
      ReadsAs (text e).2.toList (.ofDatum e'.2)) es es') :
    ReadsAs (Datum.bracketed b.opener b.closer indent
        ((es.map text).map fun t => t.1 ++ gap t ++ t.2)).toList
      (.tagged b.tag (Expr.ofEntries es')) := by
  have hparts : ∃ parts : List (String × List Expr),
      parts.map Prod.fst = (es.map text).map (fun t => t.1 ++ gap t ++ t.2) ∧
      parts.flatMap Prod.snd = es'.flatMap (fun e => [.ofDatum e.1, .ofDatum e.2]) ∧
      ∀ p ∈ parts, b.Adds p.1.toList p.2 := by
    induction h with
    | nil => exact ⟨[], rfl, rfl, by simp⟩
    | @cons e e' es es' he _ ih =>
      obtain ⟨hgap, hgaps⟩ := List.forall_mem_cons.mp hgap
      obtain ⟨parts, htexts, htrees, hparts⟩ := ih hgaps
      refine ⟨((text e).1 ++ gap (text e) ++ (text e).2, [.ofDatum e'.1, .ofDatum e'.2]) :: parts,
        by simp [htexts], by simp [htrees], ?_⟩
      exact List.forall_mem_cons.mpr ⟨.entry b hgap he.1 he.2, hparts⟩
  obtain ⟨parts, htexts, htrees, hparts⟩ := hparts
  have hreads := b.readsAs_bracketed indent hparts
  rwa [htexts, htrees, ← Expr.ofEntries_eq_flatMap] at hreads

/-- The representation of a datum, at any indent level, is read as the literal of an identical one. -/
theorem exists_reading {d : Datum} (hd : d.Literal) (indent : Int) :
    ∃ d', Identical d d' ∧ ReadsAs (d.repr indent).toList (.ofDatum d') := by
  induction hd generalizing indent with
  | @atom a hfinite hsym =>
    have hreadable : a.Readable := by
      cases a with
      | float f => exact hfinite f rfl
      | sym name => exact absurd rfl (hsym name)
      | _ => trivial
    refine ⟨.atom a, .atom a, ?_⟩
    rw [Datum.repr, Expr.ofDatum, ← Expr.serialize_atom]
    exact (reads_atom hreadable).readsAs
  | @list ds _ ih =>
    obtain ⟨ds', hall⟩ := exists_forall₂ fun d hd => ih d hd (indent + 1)
    obtain ⟨hlength, hzip⟩ := List.forall₂_iff_zip.mp hall
    refine ⟨.list ds', .list hlength fun p hp => (hzip hp).1, ?_⟩
    rw [Datum.repr, Datum.reprs_eq_map, Expr.ofDatum]
    exact readsAs_elements .list indent (hall.imp fun _ _ h => h.2)
  | @tuple ds _ ih =>
    obtain ⟨ds', hall⟩ := exists_forall₂ fun d hd => ih d hd (indent + 1)
    obtain ⟨hlength, hzip⟩ := List.forall₂_iff_zip.mp hall
    refine ⟨.tuple ds', .tuple hlength fun p hp => (hzip hp).1, ?_⟩
    rw [Datum.repr, Datum.reprs_eq_map, Expr.ofDatum]
    exact readsAs_elements .tuple indent (hall.imp fun _ _ h => h.2)
  | @set ds _ _ _ ih =>
    obtain ⟨zs, horder, hsorted⟩ := Datum.exists_sorted (Datum.repr (indent + 1)) (· ≤ ·) ds
    obtain ⟨ds', hall⟩ := exists_forall₂ fun d hd => ih d (horder.mem_iff.mpr hd) (indent + 1)
    obtain ⟨hlength, hzip⟩ := List.forall₂_iff_zip.mp hall
    refine ⟨.set ds', .set horder hlength fun p hp => (hzip hp).1, ?_⟩
    rw [Datum.repr, Datum.reprs_eq_map, hsorted, Expr.ofDatum]
    exact readsAs_elements .set indent (hall.imp fun _ _ h => h.2)
  | @dict es _ _ _ _ ihkey ihvalue =>
    obtain ⟨zs, horder, hsorted⟩ := Datum.exists_sorted
      (fun e : Datum × Datum => (e.1.repr Datum.noIndent, e.2.repr (indent + 1))) (·.1 ≤ ·.1) es
    obtain ⟨gap, hgap, halign⟩ := Datum.exists_gaps indent
      (zs.map fun e => (e.1.repr Datum.noIndent, e.2.repr (indent + 1)))
    have hentry : ∀ z ∈ zs, ∃ e : Datum × Datum,
        (Identical z.1 e.1 ∧ ReadsAs (z.1.repr Datum.noIndent).toList (.ofDatum e.1)) ∧
          Identical z.2 e.2 ∧ ReadsAs (z.2.repr (indent + 1)).toList (.ofDatum e.2) := by
      intro z hz
      obtain ⟨k, hk⟩ := ihkey z (horder.mem_iff.mpr hz) Datum.noIndent
      obtain ⟨v, hv⟩ := ihvalue z (horder.mem_iff.mpr hz) (indent + 1)
      exact ⟨(k, v), hk, hv⟩
    obtain ⟨es', hall⟩ := exists_forall₂ hentry
    obtain ⟨hlength, hzip⟩ := List.forall₂_iff_zip.mp hall
    refine ⟨.dict es', .dict horder hlength (fun p hp => (hzip hp).1.1) fun p hp => (hzip hp).2.1, ?_⟩
    rw [Datum.repr, Datum.reprEntries_eq_map, hsorted, halign, Expr.ofDatum]
    refine readsAs_entries .dict indent (fun e he => hgap _ (List.mem_map_of_mem he)) ?_
    exact hall.imp fun _ _ h => ⟨h.1.2, h.2.2⟩

theorem parse_repr {d : Datum} (hd : d.Literal) (indent : Int) (name : String) :
    ∃ d', Identical d d' ∧
      Source.parse ⟨name, d.repr indent⟩ = { trees := [.ofDatum d'], error := none } := by
  obtain ⟨d', hsame, hreads⟩ := exists_reading hd indent
  exact ⟨d', hsame, parse_of_goes name (hreads.goes ⟨[], []⟩)⟩

end EventTally
