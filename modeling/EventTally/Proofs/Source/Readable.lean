import EventTally.Proofs.Source.Lexing
import EventTally.Source.Parser

/-! # Trees that can be read

What a tree read from a text is made of: finite doubles, symbols that are one token and are not the
name of a constant, and forms of such trees. `readable_of_parse` says that the parser builds no
other trees, whatever the text.
-/

namespace EventTally

def Atom.Readable : Atom → Prop
  | .float f => f.isFinite = true
  | .sym name =>
    Token.scan name.toList = .lexeme .symbol name.toList [] ∧
      name ≠ "null" ∧ name ≠ "true" ∧ name ≠ "false"
  | _ => True

inductive Expr.Readable : Expr → Prop
  | atom {a : Atom} (h : a.Readable) : Readable (.atom a)
  | form {elems : List Expr} (h : ∀ e ∈ elems, Readable e) : Readable (.form elems)

namespace Expr

theorem Readable.elems {elems : List Expr} (h : (Expr.form elems).Readable) : ∀ e ∈ elems, e.Readable := by
  cases h with
  | form h => exact h

theorem Readable.tagged {name : String} {elems : List Expr} (hname : (sym name).Readable)
    (helems : ∀ e ∈ elems, e.Readable) : (tagged name elems).Readable := by
  refine .form ?_
  rintro e (_ | ⟨_, he⟩)
  · exact hname
  · exact helems e he

theorem untag?_eq_some {name : String} {e : Expr} {elems : List Expr}
    (h : e.untag? name = some elems) : e = tagged name elems := by
  unfold untag? at h
  split at h
  · split at h
    · next hname =>
      cases h
      rw [← hname]
      rfl
    · cases h
  · cases h

theorem Readable.untag? {name : String} {e : Expr} {elems : List Expr} (he : e.Readable)
    (h : e.untag? name = some elems) : ∀ d ∈ elems, d.Readable := by
  obtain rfl := untag?_eq_some h
  exact fun d hd => he.elems d (List.mem_cons_of_mem _ hd)

theorem readable_quote : (sym "quote").Readable := .atom ⟨rfl, by decide, by decide, by decide⟩

theorem readable_unquote : (sym "unquote").Readable := .atom ⟨rfl, by decide, by decide, by decide⟩

theorem Readable.quoted {e : Expr} (he : e.Readable) : e.quoted.Readable :=
  readable_quote.tagged (by simpa using he)

theorem Readable.pinned {e : Expr} (he : e.Readable) : e.pinned.Readable :=
  readable_quote.tagged (by simpa using readable_unquote.tagged (by simpa using he))

end Expr

theorem Bracket.readable_tag (b : Bracket) : (Expr.sym b.tag).Readable := by
  cases b
  all_goals exact .atom ⟨rfl, by decide, by decide, by decide⟩

theorem Bracket.readable_intoTag (b : Bracket) : (Expr.sym b.intoTag).Readable := by
  cases b
  all_goals exact .atom ⟨rfl, by decide, by decide, by decide⟩

theorem Token.isName_of_mem_tokensFrom {pos : Nat} {stray cs : List Char} {t : Token}
    (ht : t ∈ tokensFrom pos stray cs) (hkind : t.kind = .symbol) : IsName t.text.toList := by
  rcases mem_tokensFrom ht with herror | heof | ⟨-, cs, rest, hscan⟩
  · rw [herror] at hkind
    cases hkind
  · rw [heof] at hkind
    cases hkind
  · rw [hkind] at hscan
    exact isName_of_scan hscan

theorem readable_symbolAtom {text : String} (h : Token.IsName text.toList) :
    (Reading.symbolAtom text).Readable := by
  unfold Reading.symbolAtom
  split
  · trivial
  · split
    · trivial
    · split
      · trivial
      · refine ⟨?_, by assumption, by assumption, by assumption⟩
        simpa using h.lexes [] Token.stops_nil

/-- The trees in an open frame can be read. -/
def Frame.Readable : Frame → Prop
  | .form done => ∀ e ∈ done, e.Readable
  | .literal _ done _ => ∀ item ∈ done, item.expr.Readable
  | .quote => True
  | .pin => True

structure Reading.Readable (r : Reading) : Prop where
  frames : ∀ f ∈ r.frames, f.Readable
  trees : ∀ e ∈ r.trees, e.Readable

namespace Bracket

theorem readable_chunk (b : Bracket) {run : List Expr} (hrun : ∀ e ∈ run, e.Readable) :
    ∀ e ∈ b.chunk run, e.Readable := by
  unfold chunk
  split
  · intro e he
    cases he
  · intro e he
    cases List.mem_singleton.mp he
    exact b.readable_tag.tagged hrun

theorem readable_children (b : Bracket) {run : List Expr} {items : List Item}
    (hrun : ∀ e ∈ run, e.Readable) (hitems : ∀ i ∈ items, i.expr.Readable) :
    ∀ e ∈ (b.children run items).1, e.Readable := by
  induction items generalizing run with
  | nil => exact b.readable_chunk hrun
  | cons item items ih =>
    obtain ⟨d, spread⟩ := item
    have hd : d.Readable := hitems ⟨d, spread⟩ (by simp)
    have hrest : ∀ i ∈ items, i.expr.Readable := fun i hi => hitems i (by simp [hi])
    cases spread with
    | false =>
      refine ih (fun e he => ?_) hrest
      rcases List.mem_append.mp he with he | he
      · exact hrun e he
      · cases List.mem_singleton.mp he
        exact hd
    | true =>
      unfold children
      split
      · next elems helems =>
        refine ih (fun e he => ?_) hrest
        rcases List.mem_append.mp he with he | he
        · exact hrun e he
        · exact hd.untag? helems e he
      · intro e he
        rcases List.mem_append.mp he with he | he
        · exact b.readable_chunk hrun e he
        · rcases List.mem_cons.mp he with rfl | he
          · exact hd
          · exact ih (by simp) hrest e he

theorem readable_merged (b : Bracket) {items : List Item} (hitems : ∀ i ∈ items, i.expr.Readable) :
    ∀ e ∈ b.merged items, e.Readable := by
  induction items with
  | nil =>
    intro e he
    cases he
  | cons item items ih =>
    obtain ⟨d, spread⟩ := item
    have hd : d.Readable := hitems ⟨d, spread⟩ (by simp)
    have hrest := ih fun i hi => hitems i (by simp [hi])
    cases spread with
    | false =>
      intro e he
      rcases List.mem_cons.mp he with rfl | he
      · exact hd
      · exact hrest e he
    | true =>
      intro e he
      rcases List.mem_append.mp he with he | he
      · cases helems : d.untag? b.tag with
        | none =>
          rw [helems] at he
          cases he
        | some elems =>
          rw [helems] at he
          exact hd.untag? helems e he
      · exact hrest e he

theorem readable_desugar (b : Bracket) {items : List Item}
    (hitems : ∀ i ∈ items, i.expr.Readable) : (b.desugar items).Readable := by
  have hchildren := @readable_children b [] items (by simp) hitems
  unfold desugar
  split
  · next h =>
    rw [h] at hchildren
    exact b.readable_intoTag.tagged hchildren
  · exact b.readable_tag.tagged (b.readable_merged hitems)

end Bracket

namespace Reading

theorem readable_push {e : Expr} {frames : List Frame} {trees : List Expr} (he : e.Readable)
    (hframes : ∀ f ∈ frames, f.Readable) (htrees : ∀ e ∈ trees, e.Readable) :
    (push e frames trees).Readable := by
  induction frames generalizing e with
  | nil =>
    refine ⟨hframes, ?_⟩
    rintro d (_ | ⟨_, hd⟩)
    · exact he
    · exact htrees d hd
  | cons f frames ih =>
    have hrest : ∀ f ∈ frames, f.Readable := fun f hf => hframes f (by simp [hf])
    have hf : f.Readable := hframes f (by simp)
    cases f with
    | form done =>
      refine ⟨?_, htrees⟩
      rintro f (_ | ⟨_, hf'⟩)
      · rintro d (_ | ⟨_, hd⟩)
        · exact he
        · exact hf d hd
      · exact hrest f hf'
    | literal b done pending =>
      refine ⟨?_, htrees⟩
      rintro f (_ | ⟨_, hf'⟩)
      · rintro i (_ | ⟨_, hi⟩)
        · exact he
        · exact hf i hi
      · exact hrest f hf'
    | quote => exact ih he.quoted hrest
    | pin => exact ih he.pinned hrest

theorem Readable.add {r : Reading} (hr : r.Readable) {e : Expr} (he : e.Readable) :
    (r.add e).Readable := readable_push he hr.frames hr.trees

theorem Readable.enter {r : Reading} (hr : r.Readable) {f : Frame} (hf : f.Readable) :
    (r.enter f).Readable := by
  refine ⟨?_, hr.trees⟩
  rintro g (_ | ⟨_, hg⟩)
  · exact hf
  · exact hr.frames g hg

theorem Readable.close {r r' : Reading} (hr : r.Readable) {t : Token} (h : r.close t = .ok r') :
    r'.Readable := by
  unfold Reading.close at h
  split at h
  · next done frames hframes =>
    have hdone : (Frame.form done).Readable := hr.frames _ (by simp [hframes])
    have hrest : ∀ f ∈ frames, f.Readable := fun f hf => hr.frames f (by simp [hframes, hf])
    split at h
    · cases h
      exact readable_push (.form fun e he => hdone e (by simpa using he)) hrest hr.trees
    · cases h
  · cases h
  · next b done frames hframes =>
    have hdone : (Frame.literal b done none).Readable := hr.frames _ (by simp [hframes])
    have hrest : ∀ f ∈ frames, f.Readable := fun f hf => hr.frames f (by simp [hframes, hf])
    split at h
    · cases h
      exact readable_push (b.readable_desugar fun i hi => hdone i (by simpa using hi)) hrest hr.trees
    · cases h
  · cases h

theorem Readable.spread {r r' : Reading} (hr : r.Readable) {t : Token} (h : r.spread t = .ok r') :
    r'.Readable := by
  unfold Reading.spread at h
  split at h
  · next b done frames hframes =>
    cases h
    refine ⟨?_, hr.trees⟩
    rintro f (_ | ⟨_, hf⟩)
    · exact hr.frames (.literal b done none) (by simp [hframes])
    · exact hr.frames f (hframes ▸ List.mem_cons_of_mem _ hf)
  · cases h

theorem Readable.step {r r' : Reading} (hr : r.Readable) {t : Token}
    (ht : t.kind = .symbol → Token.IsName t.text.toList) (h : r.step t = .ok r') : r'.Readable := by
  unfold Reading.step at h
  split at h
  · cases h
  · split at h
    · cases h
      exact hr
    · cases h
  · split at h
    · cases h
      exact hr.add (.atom trivial)
    · cases h
  · split at h
    · next hf =>
      cases h
      exact hr.add (.atom (Decimal.isFinite_of_readPlain? hf))
    · cases h
  · next hkind =>
    cases h
    exact hr.add (.atom (readable_symbolAtom (ht hkind)))
  · cases h
    exact hr.add (.atom trivial)
  · cases h
    exact hr.enter (by simp [Frame.Readable])
  · cases h
    exact hr.enter (by simp [Frame.Readable])
  · cases h
    exact hr.enter (by simp [Frame.Readable])
  · cases h
    exact hr.enter (by simp [Frame.Readable])
  · cases h
    exact hr.enter (by simp [Frame.Readable])
  · cases h
    exact hr.enter trivial
  · cases h
    exact hr.enter trivial
  · exact hr.spread h
  · exact hr.close h
  · exact hr.close h
  · exact hr.close h
  · cases h
    exact hr
  · cases h
    exact hr

theorem Readable.run {r : Reading} (hr : r.Readable) {ts : List Token}
    (hts : ∀ t ∈ ts, t.kind = .symbol → Token.IsName t.text.toList) : (r.run ts).1.Readable := by
  induction ts generalizing r with
  | nil => exact hr
  | cons t ts ih =>
    unfold Reading.run
    split
    · next h => exact ih (hr.step (hts t (by simp)) h) fun u hu => hts u (by simp [hu])
    · exact hr

end Reading

/-- Every tree that the parser returns can be read, also those before a parse error. -/
theorem readable_of_parse {src : Source} {e : Expr} (he : e ∈ src.parse.trees) : e.Readable := by
  have hstart : Reading.start.Readable := ⟨by simp [Reading.start], by simp [Reading.start]⟩
  have hrun := @Reading.Readable.run _ hstart (Token.tokenize src.code) fun t ht =>
    Token.isName_of_mem_tokensFrom ht
  exact hrun.trees e (by simpa [Source.parse] using he)

end EventTally
