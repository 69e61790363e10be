import EventTally.Datum.Repr
import EventTally.Proofs.Source.Readable

/-! # Reading back what is written

The text of a tree takes the machine from any state to the state with the tree added
(`Reads`). The text of a form is one of five layouts (`serialize_form`); each is put together from
pieces whose reading is known. `parse_serializeAll` and `parseOne_serialize` follow for whole texts.
-/

namespace EventTally

open Token (Stops Lexes tokensFrom)

namespace Reading

/-- Tokens that are taken one after the other, each in a state in which `keep` holds. -/
inductive Path (keep : Reading → Prop) : Reading → List Token → Reading → Prop
  | nil (r : Reading) : Path keep r [] r
  | cons {r r' r'' : Reading} {t : Token} {ts : List Token} (hkeep : keep r) (hkind : t.kind ≠ .eof)
      (hstep : r.step t = .ok r') (hpath : Path keep r' ts r'') : Path keep r (t :: ts) r''

theorem Path.append {keep : Reading → Prop} {r r' r'' : Reading} {ts us : List Token}
    (h : Path keep r ts r') (h' : Path keep r' us r'') : Path keep r (ts ++ us) r'' := by
  induction h with
  | nil => exact h'
  | cons hkeep hkind hstep _ ih => exact .cons hkeep hkind hstep (ih h')

theorem Path.mono {keep keep' : Reading → Prop} (himp : ∀ r, keep r → keep' r) {r r' : Reading}
    {ts : List Token} (h : Path keep r ts r') : Path keep' r ts r' := by
  induction h with
  | nil => exact .nil _
  | cons hkeep hkind hstep _ ih => exact .cons (himp _ hkeep) hkind hstep ih

theorem Path.run {keep : Reading → Prop} {r r' : Reading} {ts : List Token} (h : Path keep r ts r')
    (us : List Token) : r.run (ts ++ us) = r'.run us := by
  induction h with
  | nil => rfl
  | cons _ _ hstep _ ih => rw [List.cons_append, Reading.run, hstep]; exact ih

theorem Path.runOne {r r' : Reading} {ts : List Token} (h : Path (·.trees = []) r ts r')
    (us : List Token) : r.runOne (ts ++ us) = r'.runOne us := by
  induction h with
  | nil => rfl
  | cons hkeep hkind hstep _ ih =>
    rw [List.cons_append, Reading.runOne, hkeep, hstep]
    simpa [hkind] using ih

/-- The text `cs` takes the machine from `r` to `r'` wherever it stands before a stop. -/
def Goes (keep : Reading → Prop) (cs : List Char) (r r' : Reading) : Prop :=
  ∀ pos rest, Stops rest → ∃ ts pos', tokensFrom pos [] (cs ++ rest) = ts ++ tokensFrom pos' [] rest ∧
    Path keep r ts r'

/-- A text that starts with a character other than white space. -/
def Opens (cs : List Char) : Prop := ∃ c ds, cs = c :: ds ∧ Text.isBlank c = false

theorem Opens.append {cs : List Char} (h : Opens cs) (ds : List Char) : Opens (cs ++ ds) := by
  obtain ⟨c, cs, rfl, hc⟩ := h
  exact ⟨c, cs ++ ds, rfl, hc⟩

variable {keep : Reading → Prop} {r r' r'' : Reading} {cs ds : List Char}

theorem Goes.nil (r : Reading) : Goes keep [] r r :=
  fun pos _ _ => ⟨[], pos, rfl, .nil r⟩

theorem Goes.mono {keep' : Reading → Prop} (himp : ∀ r, keep r → keep' r) (h : Goes keep cs r r') :
    Goes keep' cs r r' := by
  intro pos rest hrest
  obtain ⟨ts, pos', htokens, hpath⟩ := h pos rest hrest
  exact ⟨ts, pos', htokens, hpath.mono himp⟩

theorem Goes.append {c : Char} (hc : Token.isStop c = true) (h : Goes keep cs r r')
    (h' : Goes keep (c :: ds) r' r'') : Goes keep (cs ++ c :: ds) r r'' := by
  intro pos rest hrest
  obtain ⟨ts, pos', htokens, hpath⟩ := h pos (c :: ds ++ rest) (Token.stops_cons hc _)
  obtain ⟨us, pos'', htokens', hpath'⟩ := h' pos' rest hrest
  refine ⟨ts ++ us, pos'', ?_, hpath.append hpath'⟩
  rw [List.append_assoc, htokens, htokens', List.append_assoc]

theorem Goes.gap {bs : List Char} (hbs : Token.IsGap bs) (hopens : Opens cs)
    (h : Goes keep cs r r') : Goes keep (bs ++ cs) r r' := by
  intro pos rest hrest
  obtain ⟨d, ds, rfl, hd⟩ := hopens
  obtain ⟨pos', hgap⟩ := @Token.tokensFrom_gap bs (d :: ds ++ rest) hbs (by simpa using hd) pos
  obtain ⟨ts, pos'', htokens, hpath⟩ := h pos' rest hrest
  refine ⟨ts, pos'', ?_, hpath⟩
  rw [List.append_assoc, hgap, htokens]

theorem Goes.append_gap {bs : List Char} (hbs : Token.IsGap bs) (hopens : Opens ds)
    (h : Goes keep cs r r') (h' : Goes keep ds r' r'') : Goes keep (cs ++ (bs ++ ds)) r r'' := by
  have hrest := h'.gap hbs hopens
  obtain ⟨hne, hblank⟩ := hbs
  obtain ⟨c, bs, rfl⟩ := List.exists_cons_of_ne_nil hne
  exact h.append (Token.isStop_of_isBlank (hblank c (by simp))) hrest

theorem Goes.sign (text : String) (kind : TokenKind) (hmem : (text, kind) ∈ Token.punctuation)
    (hkeep : keep r)
    (h : ∀ span, ∃ r', r.step ⟨kind, text, span, false⟩ = .ok r' ∧ Goes keep cs r' r'') :
    Goes keep (text.toList ++ cs) r r'' := by
  have hkinds : ∀ p ∈ Token.punctuation, p.2 ≠ .eof ∧ p.2.isGap = false := by decide
  intro pos rest hrest
  have hscan := Token.scan_punctuation hmem (cs ++ rest)
  have htoken := Token.tokensFrom_lexeme pos hscan (hkinds _ hmem).2
  obtain ⟨r', hstep, hgoes⟩ := h ⟨pos, pos + Text.byteLength text.toList⟩
  obtain ⟨ts, pos', htokens, hpath⟩ := hgoes (pos + Text.byteLength text.toList) rest hrest
  rw [htokens, String.ofList_toList, ← List.append_assoc] at htoken
  exact ⟨_ :: ts, pos', htoken, .cons hkeep (hkinds _ hmem).1 hstep hpath⟩

theorem Goes.atom {kind : TokenKind} (hlexes : Lexes kind cs) (hkind : kind ≠ .eof)
    (hgap : kind.isGap = false) (hkeep : keep r)
    (hstep : ∀ span, r.step ⟨kind, String.ofList cs, span, false⟩ = .ok r') : Goes keep cs r r' := by
  intro pos rest hrest
  have htoken := Token.tokensFrom_lexeme pos (hlexes rest hrest) hgap
  exact ⟨[_], _, htoken, .cons hkeep hkind (hstep _) (.nil _)⟩

theorem opens_of_lexes {kind : TokenKind} (hlexes : Lexes kind cs) (hgap : kind.isGap = false) :
    Opens cs := by
  have hscan := hlexes [] Token.stops_nil
  obtain ⟨-, hne⟩ := Token.scan_eq_lexeme hscan
  obtain ⟨c, ds, rfl⟩ := List.exists_cons_of_ne_nil hne
  refine ⟨c, ds, rfl, Token.not_isBlank_of_scan hscan ?_⟩
  rintro rfl
  cases hgap

/-- Texts with a separator between them are read one after the other. `mk` makes a state of the
machine of what has been collected. -/
theorem Goes.sequence {α σ : Type} {sep : List Char} (hsep : Token.IsGap sep)
    (text : α → List Char) (mk : σ → Reading) (next : σ → α → σ) {as : List α}
    (h : ∀ a ∈ as, Opens (text a) ∧ ∀ s, Goes keep (text a) (mk s) (mk (next s a))) (s : σ) :
    Goes keep (List.intercalate sep (as.map text)) (mk s) (mk (as.foldl next s)) ∧
      (as ≠ [] → Opens (List.intercalate sep (as.map text))) := by
  induction as generalizing s with
  | nil => exact ⟨.nil _, fun hne => absurd rfl hne⟩
  | cons a as ih =>
    obtain ⟨hopens, ha⟩ := h a (by simp)
    obtain ⟨hrest, hrestOpens⟩ := ih (fun b hb => h b (by simp [hb])) (next s a)
    cases as with
    | nil => exact ⟨by simpa using ha s, fun _ => by simpa using hopens⟩
    | cons b bs =>
      rw [List.map_cons, List.map_cons, List.intercalate_cons_cons, List.append_assoc]
      exact ⟨ha s |>.append_gap hsep (hrestOpens (by simp)) hrest, fun _ => hopens.append _⟩

end Reading

namespace Expr

theorem serialize_atom (a : Atom) : (atom a).serialize = a.text := by
  unfold serialize Datum.ofExpr Datum.serialize
  rfl

theorem texts_ofExprs (es : List Expr) : Datum.texts (Datum.ofExprs es) = es.map serialize := by
  induction es with
  | nil => simp [Datum.ofExprs, Datum.texts]
  | cons e es ih => simp only [Datum.ofExprs, Datum.texts, ih, List.map_cons]; rfl

theorem ofExprs_eq (es : List Expr) : Datum.ofExprs es = es.map Datum.ofExpr := by
  induction es with
  | nil => rw [Datum.ofExprs]; rfl
  | cons e es ih => rw [Datum.ofExprs, ih]; rfl

theorem isTagged_ofExpr (tag : String) (e : Expr) :
    Datum.isTagged tag (Datum.ofExpr e) = (e.untag? tag).isSome := by
  cases e with
  | atom a => rw [Datum.ofExpr]; rfl
  | form es =>
    cases es with
    | nil => rw [Datum.ofExpr, Datum.ofExprs]; rfl
    | cons head es =>
      cases head with
      | form fs => rw [Datum.ofExpr, Datum.ofExprs, Datum.ofExpr]; rfl
      | atom a =>
        cases a with
        | sym name =>
          rw [Datum.ofExpr, Datum.ofExprs, Datum.ofExpr, Datum.isTagged, untag?]
          split <;> simp_all
        | _ => rw [Datum.ofExpr, Datum.ofExprs, Datum.ofExpr]; rfl

end Expr

/-- The text of an element of a literal. -/
def Item.text (i : Item) : String := if i.spread then "&" ++ i.expr.serialize else i.expr.serialize

/-- The elements as which a child of an `(into_tag …)` form is written. -/
def Bracket.itemsOf (b : Bracket) (e : Expr) : List Item :=
  match e.untag? b.tag with
  | some elems => elems.map fun d => ⟨d, false⟩
  | none => [⟨e, true⟩]

theorem Bracket.spreadTexts_ofExprs (b : Bracket) (es : List Expr) :
    Datum.spreadTexts b.tag (Datum.ofExprs es) = (es.flatMap b.itemsOf).map Item.text := by
  induction es with
  | nil => rw [Datum.ofExprs, Datum.spreadTexts]; rfl
  | cons e es ih =>
    rw [Datum.ofExprs, Datum.spreadTexts, ih, List.flatMap_cons, List.map_append,
      Expr.isTagged_ofExpr]
    congr 1
    unfold Bracket.itemsOf
    cases h : e.untag? b.tag with
    | none => rfl
    | some elems =>
      obtain rfl := Expr.untag?_eq_some h
      rw [Option.isSome_some, if_pos rfl, Expr.tagged, Datum.ofExpr, Datum.elemTexts,
        Expr.texts_ofExprs, List.map_cons, List.drop_one, List.tail_cons, List.map_map]
      rfl

theorem Bracket.children_plain (b : Bracket) (run es : List Expr) (items : List Item) :
    b.children run (es.map (fun e => ⟨e, false⟩) ++ items) = b.children (run ++ es) items := by
  induction es generalizing run with
  | nil => simp
  | cons e es ih =>
    rw [List.map_cons, List.cons_append, Bracket.children, ih, List.append_assoc]
    rfl

theorem Bracket.chunk_of_ne_nil (b : Bracket) {run : List Expr} (h : run ≠ []) :
    b.chunk run = [Expr.tagged b.tag run] := by
  unfold Bracket.chunk
  simp [h]

theorem Bracket.isEmptyChunk_tagged (b : Bracket) (elems : List Expr)
    (h : Datum.isEmptyChunk (Datum.ofExpr (Expr.tagged b.tag elems)) = false) : elems ≠ [] := by
  rintro rfl
  rw [Expr.tagged, Datum.ofExpr, Datum.ofExprs, Datum.ofExprs] at h
  cases h

/-- Children that come after a spread are collected as they were. `run` is the chunk before them,
which no other chunk may follow. -/
theorem Bracket.children_rest (b : Bracket) {afterChunk : Bool} {run es : List Expr}
    (hrun : afterChunk = false → run = [])
    (h : Datum.canonicalSpread.restCanonical b.tag afterChunk (Datum.ofExprs es) = true) :
    (b.children run (es.flatMap b.itemsOf)).1 = b.chunk run ++ es := by
  induction es generalizing afterChunk run with
  | nil => simp [Bracket.children]
  | cons e es ih =>
    rw [Datum.ofExprs, Datum.canonicalSpread.restCanonical, Expr.isTagged_ofExpr] at h
    rw [List.flatMap_cons, Bracket.itemsOf]
    cases hchunk : e.untag? b.tag with
    | none =>
      rw [hchunk] at h
      simp only [List.singleton_append, Bracket.children, hchunk]
      rw [ih (fun _ => rfl) h]
      rfl
    | some elems =>
      obtain rfl := Expr.untag?_eq_some hchunk
      rw [hchunk, Option.isSome_some, if_pos rfl, Bool.and_eq_true, Bool.and_eq_true] at h
      obtain rfl := hrun (by simpa using h.1.1)
      have helems := b.isEmptyChunk_tagged elems (by simpa using h.1.2)
      rw [b.children_plain, ih (by simp) h.2, List.nil_append, b.chunk_of_ne_nil helems]
      rfl

theorem Bracket.children_canonical (b : Bracket) {afterChunk : Bool} {run es : List Expr}
    (hrun : afterChunk = false → run = [])
    (h : Datum.canonicalSpread b.tag afterChunk (Datum.ofExprs es) = true) :
    b.children run (es.flatMap b.itemsOf) = (b.chunk run ++ es, true) := by
  induction es generalizing afterChunk run with
  | nil =>
    rw [Datum.ofExprs, Datum.canonicalSpread] at h
    cases h
  | cons e es ih =>
    rw [Datum.ofExprs, Datum.canonicalSpread, Expr.isTagged_ofExpr] at h
    rw [List.flatMap_cons, Bracket.itemsOf]
    cases hchunk : e.untag? b.tag with
    | none =>
      rw [hchunk] at h
      simp only [List.singleton_append, Bracket.children, hchunk]
      rw [b.children_rest (fun _ => rfl) h]
      rfl
    | some elems =>
      obtain rfl := Expr.untag?_eq_some hchunk
      rw [hchunk, Option.isSome_some, if_pos rfl, Bool.and_eq_true, Bool.and_eq_true] at h
      obtain rfl := hrun (by simpa using h.1.1)
      have helems := b.isEmptyChunk_tagged elems (by simpa using h.1.2)
      rw [b.children_plain, ih (by simp) h.2, List.nil_append, b.chunk_of_ne_nil helems]
      rfl

theorem Bracket.desugar_canonical (b : Bracket) {es : List Expr}
    (h : Datum.canonicalSpread b.tag false (Datum.ofExprs es) = true) :
    b.desugar (es.flatMap b.itemsOf) = Expr.tagged b.intoTag es := by
  unfold Bracket.desugar
  rw [b.children_canonical (fun _ => rfl) h]
  rfl

theorem Bracket.desugar_plain (b : Bracket) (es : List Expr) :
    b.desugar (es.map fun e => ⟨e, false⟩) = Expr.tagged b.tag es := by
  have hchildren := b.children_plain [] es []
  have hmerged : b.merged (es.map fun e => ⟨e, false⟩) = es := by
    induction es with
    | nil => rfl
    | cons e es ih => rw [List.map_cons, Bracket.merged, ih (b.children_plain [] es [])]
  rw [List.append_nil] at hchildren
  unfold Bracket.desugar
  rw [hchildren]
  simp only [Bracket.children, hmerged]

theorem Bracket.ofTag?_eq_some {name : String} {b : Bracket} (h : Bracket.ofTag? name = some b) :
    b.tag = name := by
  simpa using List.find?_some h

theorem Bracket.ofIntoTag?_eq_some {name : String} {b : Bracket}
    (h : Bracket.ofIntoTag? name = some b) : b.intoTag = name := by
  simpa using List.find?_some h

/-- The layouts of a form: in parentheses, quoted, pinned, and as a literal. -/
inductive Layout : Expr → String → Prop
  | plain (es : List Expr) : Layout (.form es) ("(" ++ " ".intercalate (es.map Expr.serialize) ++ ")")
  | quote (e : Expr) : Layout e.quoted ("'" ++ e.serialize)
  | pin (e : Expr) : Layout e.pinned ("^" ++ e.serialize)
  | literal (b : Bracket) (es : List Expr) : Layout (.tagged b.tag es)
      (b.opener ++ " ".intercalate ((es.map fun e => (⟨e, false⟩ : Item)).map Item.text) ++ b.closer)
  | spread (b : Bracket) (es : List Expr)
      (h : Datum.canonicalSpread b.tag false (Datum.ofExprs es) = true) :
      Layout (.tagged b.intoTag es)
        (b.opener ++ " ".intercalate ((es.flatMap b.itemsOf).map Item.text) ++ b.closer)

def Datum.Sugar.Fits (es : List Expr) : Datum.Sugar → Prop
  | .plain => True
  | .quote => ∃ e : Expr, .form es = e.quoted
  | .pin => ∃ e : Expr, .form es = e.pinned
  | .literal b => ∃ rest, es = .sym b.tag :: rest
  | .spread b => ∃ rest, es = .sym b.intoTag :: rest ∧
      Datum.canonicalSpread b.tag false (Datum.ofExprs rest) = true

theorem Datum.collection_fits (head : String) (rest : List Expr) :
    (Datum.sugarOf.collection head (Datum.ofExprs rest)).Fits (.sym head :: rest) := by
  unfold Datum.sugarOf.collection
  cases htag : Bracket.ofTag? head with
  | some b => exact ⟨rest, by rw [Bracket.ofTag?_eq_some htag]⟩
  | none =>
    cases hinto : Bracket.ofIntoTag? head with
    | none => trivial
    | some b =>
      simp only
      split
      · next h => exact ⟨rest, by rw [Bracket.ofIntoTag?_eq_some hinto], h⟩
      · trivial

theorem Datum.isUnquote_ofExpr {e : Expr} (h : Datum.isUnquote (Datum.ofExpr e) = true) :
    ∃ d, e = .tagged "unquote" [d] := by
  cases e with
  | atom a =>
    rw [Datum.ofExpr] at h
    cases h
  | form es =>
    rw [Datum.ofExpr, Expr.ofExprs_eq] at h
    match es with
    | [] => cases h
    | [_] => simp [Datum.isUnquote] at h
    | _ :: _ :: _ :: _ => simp [Datum.isUnquote] at h
    | [.form _, _] =>
      rw [List.map_cons, Datum.ofExpr] at h
      cases h
    | [.atom a, d] =>
      rw [List.map_cons, Datum.ofExpr] at h
      cases a with
      | sym name =>
        obtain rfl : name = "unquote" := of_decide_eq_true h
        exact ⟨d, rfl⟩
      | _ => cases h

theorem Datum.sugarOf_fits (es : List Expr) : (Datum.sugarOf (Datum.ofExprs es)).Fits es := by
  match es with
  | [] => rw [Datum.ofExprs]; trivial
  | .form _ :: _ => rw [Datum.ofExprs, Datum.ofExpr]; trivial
  | .atom a :: rest =>
    rw [Datum.ofExprs, Datum.ofExpr]
    cases a with
    | sym head =>
      have hcollection := Datum.collection_fits head rest
      match rest with
      | [] => exact hcollection
      | _ :: _ :: _ => exact hcollection
      | [e] =>
        rw [Datum.ofExprs, Datum.ofExprs] at hcollection ⊢
        unfold Datum.sugarOf
        simp only
        split
        · next hquote =>
          obtain rfl := hquote
          split
          · next hunquote =>
            obtain ⟨d, rfl⟩ := Datum.isUnquote_ofExpr hunquote
            exact ⟨d, rfl⟩
          · exact ⟨e, rfl⟩
        · exact hcollection
    | _ => trivial

/-- The text of a form has one of the layouts. -/
theorem serialize_form (es : List Expr) : Layout (.form es) (Expr.form es).serialize := by
  have hfits := Datum.sugarOf_fits es
  unfold Expr.serialize
  rw [Datum.ofExpr, Datum.serialize]
  cases hsugar : Datum.sugarOf (Datum.ofExprs es) with
  | plain =>
    simp only [Expr.texts_ofExprs]
    exact .plain es
  | quote =>
    rw [hsugar] at hfits
    obtain ⟨e, he⟩ := hfits
    rw [he]
    cases he
    simp only [Expr.texts_ofExprs]
    exact .quote e
  | pin =>
    rw [hsugar] at hfits
    obtain ⟨e, he⟩ := hfits
    rw [he]
    cases he
    have hinner : Datum.innerTexts (Datum.ofExprs [.sym "quote", .tagged "unquote" [e]]) =
        [[], [.sym "unquote", e].map Expr.serialize] := by
      rw [Datum.ofExprs, Datum.ofExprs, Datum.ofExprs, Datum.innerTexts, Datum.innerTexts,
        Datum.innerTexts, Expr.tagged, Datum.ofExpr, Datum.ofExpr, Datum.elemTexts, Datum.elemTexts,
        Expr.texts_ofExprs]
      exact fun _ h => by cases h
    simp only [hinner]
    exact .pin e
  | literal b =>
    rw [hsugar] at hfits
    obtain ⟨rest, rfl⟩ := hfits
    simp only [Expr.texts_ofExprs, List.map_cons, List.drop_one, List.tail_cons]
    have := Layout.literal b rest
    rw [List.map_map] at this
    exact this
  | spread b =>
    rw [hsugar] at hfits
    obtain ⟨rest, rfl, hcanonical⟩ := hfits
    simp only [b.spreadTexts_ofExprs]
    exact .spread b rest hcanonical

open Reading

/-- The text of a tree adds the tree, whatever is open, and no other tree is complete before. -/
structure Reads (e : Expr) : Prop where
  opens : Opens e.serialize.toList
  goes : ∀ r : Reading, Goes (·.trees = r.trees) e.serialize.toList r (r.add e)

theorem reads_of_lexes {a : Atom} (kind : TokenKind) (hlexes : Lexes kind a.text.toList)
    (hkind : kind ≠ .eof) (hgap : kind.isGap = false)
    (hstep : ∀ (r : Reading) span, r.step ⟨kind, a.text, span, false⟩ = .ok (r.add (.atom a))) :
    Reads (.atom a) := by
  constructor
  · rw [Expr.serialize_atom]
    exact opens_of_lexes hlexes hgap
  · intro r
    rw [Expr.serialize_atom]
    refine .atom hlexes hkind hgap rfl fun span => ?_
    rw [String.ofList_toList]
    exact hstep r span

theorem reads_symbol {a : Atom} (hname : Token.IsName a.text.toList) (hatom : symbolAtom a.text = a) :
    Reads (.atom a) := by
  refine reads_of_lexes .symbol hname.lexes (by decide) rfl fun r span => ?_
  simp only [Reading.step, hatom]

theorem reads_atom {a : Atom} (h : a.Readable) : Reads (.atom a) := by
  cases a with
  | null => exact reads_symbol (@Token.isName_of_scan "null".toList _ [] rfl) rfl
  | bool b =>
    cases b with
    | true => exact reads_symbol (@Token.isName_of_scan "true".toList _ [] rfl) rfl
    | false => exact reads_symbol (@Token.isName_of_scan "false".toList _ [] rfl) rfl
  | int i =>
    obtain ⟨n, hn, hplaces, hpower, htext, -⟩ := Decimal.toString_numeral i.toInt
    refine reads_of_lexes .int ?_ (by decide) rfl fun r span => ?_
    · rw [Atom.text, htext]
      exact Token.lexes_int hn hpower hplaces
    · simp only [Reading.step, Atom.text, Decimal.readInt64?_toString]
  | float f =>
    obtain ⟨n, hn, hpower, hplaces, htext, -⟩ := Decimal.plainText_numeral h
    refine reads_of_lexes .float ?_ (by decide) rfl fun r span => ?_
    · rw [Atom.text, htext]
      exact Token.lexes_float hn hpower hplaces
    · simp only [Reading.step, Atom.text, Decimal.readPlain?_plainText h]
  | str s =>
    have hunescape : stringAtom (Text.literal s) = .str s := by
      unfold stringAtom Text.literal Text.literalChars
      rw [String.toList_ofList, List.cons_append, List.drop_one, List.tail_cons,
        List.dropLast_concat, Text.unescape_flatMap_literalChar, String.ofList_toList]
    refine reads_of_lexes .string ?_ (by decide) rfl fun r span => ?_
    · rw [Atom.text, Text.literal, String.toList_ofList]
      exact Token.lexes_string s.toList
    · simp only [Reading.step, Atom.text, hunescape]
  | sym name =>
    obtain ⟨hscan, hnull, htrue, hfalse⟩ := h
    refine reads_symbol (Token.isName_of_scan hscan) ?_
    simp [Reading.symbolAtom, Atom.text, hnull, htrue, hfalse]

theorem toList_spaced (texts : List String) :
    (" ".intercalate texts).toList = List.intercalate [' '] (texts.map String.toList) :=
  String.toList_intercalate

theorem reads_parens {es : List Expr} (h : ∀ e ∈ es, Reads e) (r : Reading) :
    Goes (·.trees = r.trees) ("(" ++ " ".intercalate (es.map Expr.serialize) ++ ")").toList r
      (r.add (.form es)) := by
  rw [String.toList_append, String.toList_append, toList_spaced, List.map_map, List.append_assoc]
  have hseq : Goes (·.trees = r.trees) (List.intercalate [' '] (es.map fun e => e.serialize.toList))
      (r.enter (.form [])) (r.enter (.form (es.foldl (fun done e => e :: done) []))) :=
    (Goes.sequence (Token.isGap_singleton rfl) _ (fun done => r.enter (.form done)) _
      (fun e he => ⟨(h e he).opens, fun done => (h e he).goes (r.enter (.form done))⟩) []).1
  refine .sign "(" .openParen (by decide) rfl fun _ => ⟨_, rfl, hseq.append rfl ?_⟩
  refine .sign ")" .closeParen (by decide) rfl fun _ => ⟨_, ?_, .nil _⟩
  simp [Reading.step, Reading.close, Reading.enter, Reading.add]

namespace Bracket

theorem opens_opener (b : Bracket) : Opens b.opener.toList := by
  cases b
  all_goals exact ⟨_, _, rfl, rfl⟩

theorem closer_eq (b : Bracket) :
    ∃ c, b.closer.toList = [c] ∧ Token.isStop c = true ∧ Text.isBlank c = false := by
  cases b
  all_goals exact ⟨_, rfl, rfl, rfl⟩

theorem goes_opener (b : Bracket) {r r' : Reading} {cs : List Char}
    (h : Goes (·.trees = r.trees) cs (r.enter (.literal b [] none)) r') :
    Goes (·.trees = r.trees) (b.opener.toList ++ cs) r r' := by
  have hmem : (b.opener, b.openerKind) ∈ Token.punctuation := by
    cases b <;> decide
  refine .sign b.opener b.openerKind hmem rfl fun span => ⟨_, ?_, h⟩
  cases b
  all_goals rfl

theorem goes_closer (b : Bracket) (r : Reading) (done : List Item) :
    Goes (·.trees = r.trees) b.closer.toList (r.enter (.literal b done none))
      (r.add (b.desugar done.reverse)) := by
  have hmem : (b.closer, b.closerKind) ∈ Token.punctuation := by
    cases b <;> decide
  rw [← List.append_nil b.closer.toList]
  refine .sign b.closer b.closerKind hmem rfl fun span => ⟨_, ?_, .nil _⟩
  cases b
  all_goals simp [Reading.step, Reading.close, Reading.enter, Reading.add, Bracket.closerKind]

end Bracket

theorem reads_literal (b : Bracket) {items : List Item} (h : ∀ i ∈ items, Reads i.expr)
    (r : Reading) :
    Goes (·.trees = r.trees) (b.opener ++ " ".intercalate (items.map Item.text) ++ b.closer).toList r
      (r.add (b.desugar items)) := by
  have hitem (i : Item) (hi : i ∈ items) : Opens i.text.toList ∧ ∀ done : List Item,
      Goes (·.trees = r.trees) i.text.toList (r.enter (.literal b done none))
        (r.enter (.literal b (i :: done) none)) := by
    obtain ⟨e, spread⟩ := i
    have he : Reads e := h _ hi
    cases spread with
    | false => exact ⟨he.opens, fun done => he.goes (r.enter (.literal b done none))⟩
    | true =>
      have htext : (⟨e, true⟩ : Item).text.toList = "&".toList ++ e.serialize.toList := by
        simp [Item.text]
      rw [htext]
      refine ⟨⟨'&', e.serialize.toList, rfl, rfl⟩, fun done => ?_⟩
      refine .sign "&" .spread (by decide) rfl fun span => ⟨_, rfl, ?_⟩
      exact he.goes (r.enter (.literal b done (some span)))
  rw [String.toList_append, String.toList_append, toList_spaced, List.map_map, List.append_assoc]
  have hseq : Goes (·.trees = r.trees) (List.intercalate [' '] (items.map fun i => i.text.toList))
      (r.enter (.literal b [] none))
      (r.enter (.literal b (items.foldl (fun done i => i :: done) []) none)) :=
    (Goes.sequence (Token.isGap_singleton rfl) _ (fun done => r.enter (.literal b done none)) _ hitem
      []).1
  obtain ⟨c, hc, hstop, -⟩ := b.closer_eq
  have hdone : items.foldl (fun done i => i :: done) [] = items.reverse := by simp
  have hend := b.goes_closer r items.reverse
  rw [List.reverse_reverse] at hend
  rw [hdone] at hseq
  rw [hc] at hend ⊢
  exact b.goes_opener (hseq.append hstop hend)

theorem opens_append {sign : String} (h : Opens sign.toList) (text : String) :
    Opens (sign ++ text).toList := by
  rw [String.toList_append]
  exact h.append _

theorem Layout.opens {e : Expr} {text : String} (h : Layout e text) : Opens text.toList := by
  cases h with
  | plain es => exact opens_append (opens_append ⟨'(', [], rfl, rfl⟩ _) _
  | quote e => exact opens_append ⟨'\'', [], rfl, rfl⟩ _
  | pin e => exact opens_append ⟨'^', [], rfl, rfl⟩ _
  | literal b es => exact opens_append (opens_append b.opens_opener _) _
  | spread b es hcanonical => exact opens_append (opens_append b.opens_opener _) _

/-- The elements of a form, none for an atom. -/
def Expr.elems : Expr → List Expr
  | .atom _ => []
  | .form es => es

/-- Every readable tree is read back from its text. The elements go along with it because the sugar
of a form leaves out one level of parentheses. -/
theorem reads_readable {e : Expr} (h : e.Readable) : Reads e ∧ ∀ d ∈ e.elems, Reads d := by
  induction h with
  | atom h => exact ⟨reads_atom h, by simp [Expr.elems]⟩
  | @form es _ ih =>
    have helems : ∀ d ∈ es, Reads d := fun d hd => (ih d hd).1
    refine ⟨⟨(serialize_form es).opens, fun r => ?_⟩, helems⟩
    have hlayout := serialize_form es
    generalize (Expr.form es).serialize = text at hlayout ⊢
    cases hlayout with
    | plain => exact reads_parens helems r
    | quote e =>
      rw [String.toList_append]
      refine .sign "'" .quote (by decide) rfl fun _ => ⟨_, rfl, ?_⟩
      exact (helems e (by simp)).goes (r.enter .quote)
    | pin e =>
      rw [String.toList_append]
      refine .sign "^" .pin (by decide) rfl fun _ => ⟨_, rfl, ?_⟩
      have he := (ih (.tagged "unquote" [e]) (by simp)).2 e (by simp [Expr.tagged, Expr.elems])
      exact he.goes (r.enter .pin)
    | literal b rest =>
      have hitems : ∀ i ∈ rest.map fun e => (⟨e, false⟩ : Item), Reads i.expr := by
        intro i hi
        obtain ⟨e, he, rfl⟩ := List.mem_map.mp hi
        exact helems e (List.mem_cons_of_mem _ he)
      have hreads := reads_literal b hitems r
      rw [b.desugar_plain] at hreads
      exact hreads
    | spread b rest hcanonical =>
      have hitems : ∀ i ∈ rest.flatMap b.itemsOf, Reads i.expr := by
        intro i hi
        obtain ⟨e, he, hi⟩ := List.mem_flatMap.mp hi
        have hmem := List.mem_cons_of_mem (Expr.sym b.intoTag) he
        unfold Bracket.itemsOf at hi
        split at hi
        · next elems hchunk =>
          obtain ⟨d, hd, rfl⟩ := List.mem_map.mp hi
          obtain rfl := Expr.untag?_eq_some hchunk
          exact (ih _ hmem).2 d (List.mem_cons_of_mem _ hd)
        · cases List.mem_singleton.mp hi
          exact helems e hmem
      have hreads := reads_literal b hitems r
      rw [b.desugar_canonical hcanonical] at hreads
      exact hreads

theorem toList_lines (texts : List String) :
    ("\n".intercalate texts).toList = List.intercalate ['\n'] (texts.map String.toList) :=
  String.toList_intercalate

theorem parse_of_goes (name : String) {code : String} {trees : List Expr} {keep : Reading → Prop}
    (h : Goes keep code.toList ⟨[], []⟩ ⟨[], trees⟩) :
    Source.parse ⟨name, code⟩ = { trees := trees.reverse, error := none } := by
  obtain ⟨ts, pos, htokens, hpath⟩ := h 0 [] Token.stops_nil
  obtain ⟨t, hkind, heof⟩ := Token.tokensFrom_nil pos
  have htokenize : Token.tokenize code = ts ++ [t] := by
    unfold Token.tokenize
    rw [← heof, ← htokens, List.append_nil]
  unfold Source.parse
  simp only [htokenize]
  rw [show Reading.start = ⟨[], []⟩ from rfl, hpath.run]
  simp [Reading.run, Reading.step, hkind]

/-- Trees that are written one on a line are read back. -/
theorem parse_serializeAll (name : String) {es : List Expr} (h : ∀ e ∈ es, e.Readable) :
    Source.parse ⟨name, Expr.serializeAll es⟩ = { trees := es, error := none } := by
  have hseq : Goes (fun _ => True) (List.intercalate ['\n'] (es.map fun e => e.serialize.toList))
      ⟨[], []⟩ ⟨[], es.foldl (fun trees e => e :: trees) []⟩ := by
    refine (Goes.sequence (Token.isGap_singleton rfl) _ (fun trees => ⟨[], trees⟩) _ (fun e he => ?_)
      []).1
    have hreads := (reads_readable (h e he)).1
    exact ⟨hreads.opens, fun trees => (hreads.goes ⟨[], trees⟩).mono fun _ _ => trivial⟩
  have htext : (Expr.serializeAll es).toList =
      List.intercalate ['\n'] (es.map fun e => e.serialize.toList) := by
    unfold Expr.serializeAll Datum.serializeAll
    rw [toList_lines, Expr.texts_ofExprs, List.map_map]
    rfl
  rw [← htext] at hseq
  simpa using parse_of_goes name hseq

/-- A tree is read back from its text alone. -/
theorem parseOne_serialize (name : String) {e : Expr} (h : e.Readable) :
    Source.parseOne ⟨name, e.serialize⟩ = .ok e := by
  obtain ⟨ts, pos, htokens, hpath⟩ := (reads_readable h).1.goes ⟨[], []⟩ 0 [] Token.stops_nil
  obtain ⟨t, hkind, heof⟩ := Token.tokensFrom_nil pos
  have htokenize : Token.tokenize e.serialize = ts ++ [t] := by
    unfold Token.tokenize
    rw [← heof, ← htokens, List.append_nil]
  unfold Source.parseOne
  simp only [htokenize]
  rw [show Reading.start = ⟨[], []⟩ from rfl, hpath.runOne]
  simp [Reading.runOne, Reading.add, Reading.push, hkind]

/-- The trees that the parser returns are exactly the readable ones, and every list of them is read
back from its text: together, one tree on a line, and each of them alone. -/
theorem parse_serialize_roundTrip :
    (∀ e : Expr, (∃ src : Source, e ∈ src.parse.trees) ↔ e.Readable) ∧
      ∀ es : List Expr, (∀ e ∈ es, ∃ src : Source, e ∈ src.parse.trees) → ∀ name : String,
        Source.parse ⟨name, Expr.serializeAll es⟩ = { trees := es, error := none } ∧
          ∀ e ∈ es, Source.parseOne ⟨name, e.serialize⟩ = .ok e := by
  constructor
  · intro e
    constructor
    · rintro ⟨src, he⟩
      exact readable_of_parse he
    · intro h
      refine ⟨⟨"", Expr.serializeAll [e]⟩, ?_⟩
      rw [@parse_serializeAll "" [e] (by simpa using h)]
      exact List.mem_singleton_self e
  · intro es hes name
    have hreadable : ∀ e ∈ es, e.Readable := by
      intro e he
      obtain ⟨src, hsrc⟩ := hes e he
      exact readable_of_parse hsrc
    exact ⟨parse_serializeAll name hreadable, fun e he => parseOne_serialize name (hreadable e he)⟩

/-- A form with two chunks side by side, which no literal expresses, and a string to escape. -/
theorem parse_serialize_roundTrip_adjacentChunks :
    let e : Expr := .tagged "into_list" [.tagged "list" [.atom .null], .tagged "list" [.sym "x"],
      .atom (.str "a\n")]
    e.serialize = "(into_list [null] [x] \"a\\n\")" ∧
      Source.parse ⟨"", Expr.serializeAll [e]⟩ = { trees := [e], error := none } := by
  intro e
  have hx : (Expr.sym "x").Readable := .atom ⟨rfl, by decide, by decide, by decide⟩
  have he : e.Readable := by
    refine (Bracket.readable_intoTag .list).tagged ?_
    intro d hd
    simp only [List.mem_cons, List.not_mem_nil, or_false] at hd
    rcases hd with rfl | rfl | rfl
    · exact (Bracket.readable_tag .list).tagged (by simpa using .atom trivial)
    · exact (Bracket.readable_tag .list).tagged (by simpa using hx)
    · exact .atom trivial
  refine ⟨by decide +kernel, (parse_serialize_roundTrip.2 [e] ?_ "").1⟩
  intro d hd
  rw [List.mem_singleton.mp hd]
  exact (parse_serialize_roundTrip.1 e).mpr he

end EventTally
