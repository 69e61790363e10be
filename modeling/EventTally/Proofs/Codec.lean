import EventTally.Codec
import EventTally.Proofs.Datum.Parts
import EventTally.Proofs.Json.RoundTrip

/-! # Decoding what was encoded

Sound data, whose keys are all hashable, are decoded from their stored text, unless it is nested too
deep (`unmarshal_marshal`). Hashable data come back as they were. Whatever is decoded is sound, as
the decoders check every key (`sound_of_unmarshal`).
-/

namespace EventTally

/-- The keys of dicts and the elements of sets in a datum are hashable. -/
inductive Datum.Sound : Datum → Prop
  | atom (a : Atom) : Sound (.atom a)
  | list {ds : List Datum} (h : ∀ d ∈ ds, Sound d) : Sound (.list ds)
  | tuple {ds : List Datum} (h : ∀ d ∈ ds, Sound d) : Sound (.tuple ds)
  | dict {es : List (Datum × Datum)} (hkey : ∀ e ∈ es, e.1.hashable = true)
      (h : ∀ e ∈ es, Sound e.1) (h' : ∀ e ∈ es, Sound e.2) : Sound (.dict es)
  | set {ds : List Datum} (hkey : ∀ d ∈ ds, d.hashable = true) (h : ∀ d ∈ ds, Sound d) :
      Sound (.set ds)
  | builtin (name : String) : Sound (.builtin name)
  | closure (id : Nat) (name : String) (pattern body : Datum) : Sound (.closure id name pattern body)

theorem Datum.allHashable_iff (ds : List Datum) :
    Datum.allHashable ds = true ↔ ∀ d ∈ ds, d.hashable = true := by
  induction ds with
  | nil => simp [Datum.allHashable]
  | cons d ds ih => simp [Datum.allHashable, ih]

theorem Datum.sound_of_hashable {d : Datum} (h : d.hashable = true) : d.Sound := by
  cases d with
  | atom a => exact .atom a
  | tuple ds =>
    rw [Datum.hashable, Datum.allHashable_iff] at h
    exact .tuple fun d hd => Datum.sound_of_hashable (h d hd)
  | builtin name => exact .builtin name
  | closure id name pattern body => exact .closure id name pattern body
  | list ds => simp [Datum.hashable] at h
  | dict es => simp [Datum.hashable] at h
  | set ds => simp [Datum.hashable] at h

namespace Codec

theorem bind_eq_ok {ε α β : Type} {x : Except ε α} {f : α → Except ε β} {b : β}
    (h : x >>= f = .ok b) : ∃ a, x = .ok a ∧ f a = .ok b := by
  cases x with
  | error e => cases h
  | ok a => exact ⟨a, rfl, h⟩

theorem encodeAll_eq_ok {ds : List Datum} {js : List Json} (h : encodeAll ds = .ok js) :
    List.Forall₂ (fun d j => encode d = .ok j) ds js := by
  induction ds generalizing js with
  | nil =>
    rw [encodeAll] at h
    cases h
    exact .nil
  | cons d ds ih =>
    rw [encodeAll] at h
    obtain ⟨j, hj, h⟩ := bind_eq_ok h
    obtain ⟨js, hjs, h⟩ := bind_eq_ok h
    cases h
    exact .cons hj (ih hjs)

theorem encodeEntries_eq_ok {es : List (Datum × Datum)} {js : List Json}
    (h : encodeEntries es = .ok js) :
    List.Forall₂ (fun e j => ∃ k v, encode e.1 = .ok k ∧ encode e.2 = .ok v ∧ j = .arr [k, v]) es js := by
  induction es generalizing js with
  | nil =>
    rw [encodeEntries] at h
    cases h
    exact .nil
  | cons e es ih =>
    obtain ⟨key, value⟩ := e
    rw [encodeEntries] at h
    obtain ⟨k, hk, h⟩ := bind_eq_ok h
    obtain ⟨v, hv, h⟩ := bind_eq_ok h
    obtain ⟨js, hjs, h⟩ := bind_eq_ok h
    cases h
    exact .cons ⟨k, v, hk, hv, rfl⟩ (ih hjs)

theorem mem_right {α β : Type} {R : α → β → Prop} {as : List α} {bs : List β}
    (h : List.Forall₂ R as bs) {b : β} (hb : b ∈ bs) : ∃ a ∈ as, R a b := by
  induction h with
  | nil => cases hb
  | cons hR _ ih =>
    rcases List.mem_cons.mp hb with rfl | hb
    · exact ⟨_, List.mem_cons_self, hR⟩
    · obtain ⟨a, ha, hab⟩ := ih hb
      exact ⟨a, List.mem_cons_of_mem _ ha, hab⟩

theorem mem_sortByText {j : Json} {js : List Json} : j ∈ sortByText js ↔ j ∈ js :=
  List.mem_mergeSort

theorem isFinite_of_encode {f : Float} (h : ¬ (f.isInf || f.isNaN) = true) : f.isFinite = true := by
  rw [Decimal.isFinite_eq]
  cases hi : f.isInf <;> cases hn : f.isNaN <;> simp_all

theorem encodeAtom_proper {a : Atom} {j : Json} (h : encodeAtom a = .ok j) : j.Proper := by
  cases a with
  | null => cases h; exact .null
  | bool b => cases h; exact .bool b
  | int i =>
    cases h
    obtain ⟨n, hn, -, -, htext, -⟩ := Decimal.toString_numeral i.toInt
    exact .num n hn htext
  | float f =>
    simp only [encodeAtom] at h
    split at h
    · cases h
    · next hf =>
      cases h
      obtain ⟨n, hn, -, htext, -⟩ := Decimal.compactText_numeral (isFinite_of_encode hf)
      exact .num n hn htext
  | str s => cases h; exact .str _
  | sym name => cases h; exact .str _

theorem encode_proper {d : Datum} {j : Json} (h : encode d = .ok j) : j.Proper := by
  have harr {ds : List Datum} {js : List Json}
      (ih : ∀ d ∈ ds, ∀ {j : Json}, encode d = .ok j → j.Proper) (hjs : encodeAll ds = .ok js) :
      ∀ j ∈ js, j.Proper := by
    intro j hj
    obtain ⟨d, hmem, hd⟩ := mem_right (encodeAll_eq_ok hjs) hj
    exact ih d hmem hd
  have hfield (name : String) {js : List Json} (hjs : ∀ j ∈ js, j.Proper) :
      (Json.obj [(name, .arr js)]).Proper := by
    refine .obj fun f hf => ?_
    rw [List.mem_singleton.mp hf]
    exact .arr hjs
  induction d using Datum.parts_induction generalizing j with
  | atom a =>
    rw [encode] at h
    exact encodeAtom_proper h
  | list ds ih =>
    rw [encode] at h
    obtain ⟨js, hjs, h⟩ := bind_eq_ok h
    cases h
    exact .arr (harr ih hjs)
  | tuple ds ih =>
    rw [encode] at h
    obtain ⟨js, hjs, h⟩ := bind_eq_ok h
    cases h
    exact hfield _ (harr ih hjs)
  | set ds ih =>
    rw [encode] at h
    obtain ⟨js, hjs, h⟩ := bind_eq_ok h
    cases h
    exact hfield _ fun j hj => harr ih hjs j (mem_sortByText.mp hj)
  | dict es ih ih' =>
    rw [encode] at h
    obtain ⟨js, hjs, h⟩ := bind_eq_ok h
    cases h
    refine hfield _ fun j hj => ?_
    obtain ⟨e, hmem, k, v, hk, hv, rfl⟩ := mem_right (encodeEntries_eq_ok hjs) (mem_sortByText.mp hj)
    refine .arr fun i hi => ?_
    rcases List.mem_pair.mp hi with rfl | rfl
    · exact ih e hmem hk
    · exact ih' e hmem hv
  | builtin name =>
    rw [encode] at h
    cases h
  | closure id name pattern body =>
    rw [encode] at h
    cases h

theorem decodeNumber_int (i : Int64) : decodeNumber (toString i.toInt) = .ok (.int i) := by
  obtain ⟨n, hn, hplaces, hpower, htext, -⟩ := Decimal.toString_numeral i.toInt
  have hint : (toString i.toInt).toList.any (fun c => c == '.' || c == 'e' || c == 'E') = false := by
    rw [htext, List.any_eq_false]
    intro c hc
    simp only [Decimal.Numeral.chars, Decimal.Numeral.pointed, Decimal.Numeral.raised,
      Decimal.Numeral.sign, hplaces, hpower, if_true, List.append_nil, List.mem_append] at hc
    rcases hc with hc | hc
    · split at hc
      · rw [List.mem_singleton.mp hc]
        decide
      · cases hc
    · have hdigit := hn.whole c hc
      have hne (d : Char) (hd : d.isDigit = false) : (c == d) = false :=
        beq_eq_false_iff_ne.mpr (Decimal.isDigit_ne hdigit hd)
      simp [hne '.' (by decide), hne 'e' (by decide), hne 'E' (by decide)]
  unfold decodeNumber
  simp only [hint, Bool.not_false, if_true, Decimal.readInt64?_toString]

theorem numberFloat_numeral {text : String} {n : Decimal.Numeral} (hn : n.Proper)
    (htext : text.toList = n.chars) : numberFloat text = n.float := by
  have hmark (c : Char) : (!(c == 'e' || c == 'E')) = true ↔ c ≠ 'e' ∧ c ≠ 'E' := by
    simp
  have hbody : ∀ c ∈ n.whole ++ n.pointed, (!(c == 'e' || c == 'E')) = true := by
    intro c hc
    rw [hmark]
    have hdigits : c = '.' ∨ c.isDigit = true := by
      rcases List.mem_append.mp hc with hc | hc
      · exact Or.inr (hn.whole c hc)
      · unfold Decimal.Numeral.pointed at hc
        split at hc
        · cases hc
        · rcases List.mem_cons.mp hc with rfl | hc
          · exact Or.inl rfl
          · exact Or.inr (hn.places c hc)
    rcases hdigits with rfl | hdigit
    · decide
    · exact ⟨Decimal.isDigit_ne hdigit (by decide), Decimal.isDigit_ne hdigit (by decide)⟩
  have hraised : ∀ c ∈ n.raised.head?, (!(c == 'e' || c == 'E')) = false := by
    unfold Decimal.Numeral.raised
    split
    · intro c hc
      cases hc
    · rintro c ⟨⟩
      rfl
  have hpower : n.raised.drop 1 = n.power := by
    unfold Decimal.Numeral.raised
    split
    · next h => rw [h]; rfl
    · rfl
  have hplaces : n.pointed.drop 1 = n.places := by
    unfold Decimal.Numeral.pointed
    split
    · next h => rw [h]; rfl
    · rfl
  have hpointed : ∀ c ∈ n.pointed.head?, (c != '.') = false := by
    unfold Decimal.Numeral.pointed
    split
    · intro c hc
      cases hc
    · rintro c ⟨⟩
      rfl
  have hwhole : ∀ c ∈ n.whole, (c != '.') = true := fun c hc =>
    bne_iff_ne.mpr (Decimal.isDigit_ne (hn.whole c hc) (by decide))
  obtain ⟨htake, hdrop⟩ := Decimal.takeWhile_digits hbody hraised
  obtain ⟨htake', hdrop'⟩ := Decimal.takeWhile_digits hwhole hpointed
  unfold numberFloat
  rw [htext, hn.splitSign_chars, ← List.append_assoc]
  simp only [htake, hdrop, htake', hdrop', hpower, hplaces]
  rfl

theorem decodeNumber_float {f : Float} (hf : f.isFinite = true) :
    decodeNumber (Decimal.compactText f) = .ok (.float f) := by
  obtain ⟨n, hn, hmark, htext, hfloat⟩ := Decimal.compactText_numeral hf
  have hint : (Decimal.compactText f).toList.any (fun c => c == '.' || c == 'e' || c == 'E') = true := by
    rw [htext, List.any_eq_true]
    rcases hmark with hplaces | hpower
    · exact ⟨'.', by simp [Decimal.Numeral.chars, Decimal.Numeral.pointed, hplaces], by decide⟩
    · exact ⟨'e', by simp [Decimal.Numeral.chars, Decimal.Numeral.raised, hpower], by decide⟩
  unfold decodeNumber
  simp only [hint, Bool.not_true, Bool.false_eq_true, if_false]
  rw [numberFloat_numeral hn htext, hfloat, Decimal.not_isInf_of_isFinite hf]
  rfl

theorem decodeString_str (s : String) : decodeString ("s:" ++ s) = .ok (.str s) := by
  unfold decodeString
  rw [String.toList_append]
  change Except.ok (Datum.str (String.ofList s.toList)) = _
  rw [String.ofList_toList]

theorem decodeString_sym (s : String) : decodeString ("k:" ++ s) = .ok (.sym s) := by
  unfold decodeString
  rw [String.toList_append]
  change Except.ok (Datum.sym (String.ofList s.toList)) = _
  rw [String.ofList_toList]

theorem decode_encodeAtom {a : Atom} {j : Json} (h : encodeAtom a = .ok j) :
    decode j = .ok (.atom a) := by
  unfold decode
  cases a with
  | null => cases h; rw [decodeWith]
  | bool b => cases h; rw [decodeWith]
  | int i => cases h; rw [decodeWith]; exact decodeNumber_int i
  | float f =>
    simp only [encodeAtom] at h
    split at h
    · cases h
    · next hf =>
      cases h
      rw [decodeWith]
      exact decodeNumber_float (isFinite_of_encode hf)
  | str s => cases h; rw [decodeWith]; exact decodeString_str s
  | sym name => cases h; rw [decodeWith]; exact decodeString_sym name

theorem decodeElems_eq_ok {P : Datum → Prop} {js : List Json}
    (h : ∀ j ∈ js, ∃ d, decode j = .ok d ∧ P d) :
    ∃ ds, decodeElems decodeNumber js = .ok ds ∧ ∀ d ∈ ds, P d := by
  induction js with
  | nil => exact ⟨[], by rw [decodeElems], by simp⟩
  | cons j js ih =>
    obtain ⟨d, hd, hP⟩ := h j (by simp)
    obtain ⟨ds, hds, hall⟩ := ih fun k hk => h k (by simp [hk])
    refine ⟨d :: ds, ?_, ?_⟩
    · unfold decode at hd
      rw [decodeElems, hd, hds]
      rfl
    · rintro e (_ | ⟨_, he⟩)
      · exact hP
      · exact hall e he

theorem decodeElems_encodeAll {ds : List Datum} {js : List Json}
    (h : List.Forall₂ (fun d j => encode d = .ok j) ds js)
    (hd : ∀ d ∈ ds, ∀ j, encode d = .ok j → decode j = .ok d) :
    decodeElems decodeNumber js = .ok ds := by
  induction h with
  | nil => rw [decodeElems]
  | @cons d j ds js hj _ ih =>
    have := hd d (by simp) j hj
    unfold decode at this
    rw [decodeElems, this, ih fun e he => hd e (by simp [he])]
    rfl

theorem foldlM_eq_ok {ε α β : Type} {f : β → α → Except ε β} {as : List α}
    (h : ∀ b, ∀ a ∈ as, ∃ b', f b a = .ok b') (b : β) : ∃ b', as.foldlM f b = .ok b' := by
  induction as generalizing b with
  | nil => exact ⟨b, rfl⟩
  | cons a as ih =>
    obtain ⟨b', hb'⟩ := h b a (by simp)
    rw [List.foldlM_cons, hb']
    exact ih (fun c d hd => h c d (by simp [hd])) b'

theorem foldlM_invariant {ε α β : Type} {f : β → α → Except ε β} {P : β → Prop} {as : List α}
    (hstep : ∀ b, ∀ a ∈ as, ∀ b', P b → f b a = .ok b' → P b') {b b' : β} (hb : P b)
    (h : as.foldlM f b = .ok b') : P b' := by
  induction as generalizing b with
  | nil =>
    cases h
    exact hb
  | cons a as ih =>
    rw [List.foldlM_cons] at h
    obtain ⟨c, hc, h⟩ := bind_eq_ok h
    exact ih (fun d e he => hstep d e (by simp [he])) (hstep b a (by simp) c hb hc) h

theorem exists_map_eq_ok {ε α β : Type} {x : Except ε α} (g : α → β) (h : ∃ a, x = .ok a) :
    ∃ b, (x >>= fun a => pure (g a)) = .ok b := by
  obtain ⟨a, rfl⟩ := h
  exact ⟨g a, rfl⟩

theorem setOf_eq_ok {ds : List Datum} (h : ∀ d ∈ ds, d.hashable = true) :
    ∃ d, setOf ds = .ok d := by
  refine exists_map_eq_ok _ (foldlM_eq_ok (fun acc d hd => ?_) [])
  rw [if_pos (h d hd)]
  exact ⟨_, rfl⟩

theorem dictOf_eq_ok {ds : List Datum} (h : ∀ d ∈ ds, ∃ k v, d = .list [k, v] ∧ k.hashable = true) :
    ∃ d, dictOf ds = .ok d := by
  refine exists_map_eq_ok _ (foldlM_eq_ok (fun acc d hd => ?_) [])
  obtain ⟨k, v, rfl, hk⟩ := h d hd
  simp only [hk, if_true]
  exact ⟨_, rfl⟩

theorem decode_field (kind : String) (js : List Json) :
    decode (.obj [(kind, .arr js)]) = (decodeElems decodeNumber js >>= collection kind) := by
  unfold decode
  rw [decodeWith, decodeFields, decodeFields]
  rfl

theorem decode_list {js : List Json} {ds : List Datum} (h : decodeElems decodeNumber js = .ok ds) :
    decode (.arr js) = .ok (.list ds) := by
  unfold decode
  rw [decodeWith, h]
  rfl

theorem decode_pair {k v : Json} {dk dv : Datum} (hk : decode k = .ok dk) (hv : decode v = .ok dv) :
    decode (.arr [k, v]) = .ok (.list [dk, dv]) := by
  refine decode_list ?_
  unfold decode at hk hv
  rw [decodeElems, decodeElems, decodeElems, hk, hv]
  rfl

theorem decode_encode {d : Datum} (hd : d.Sound) {j : Json} (h : encode d = .ok j) :
    ∃ d', decode j = .ok d' ∧ (d.hashable = true → d' = d) := by
  induction hd generalizing j with
  | atom a =>
    rw [encode] at h
    exact ⟨.atom a, decode_encodeAtom h, fun _ => rfl⟩
  | list _ ih =>
    rw [encode] at h
    obtain ⟨js, hjs, h⟩ := bind_eq_ok h
    cases h
    obtain ⟨ds, hds, -⟩ := decodeElems_eq_ok (P := fun _ => True) fun j (hj : j ∈ js) => by
      obtain ⟨d, hmem, hd⟩ := mem_right (encodeAll_eq_ok hjs) hj
      obtain ⟨d', hd', -⟩ := ih d hmem hd
      exact ⟨d', hd', trivial⟩
    exact ⟨.list ds, decode_list hds, fun h => by simp [Datum.hashable] at h⟩
  | @tuple ds _ ih =>
    rw [encode] at h
    obtain ⟨js, hjs, h⟩ := bind_eq_ok h
    cases h
    rw [decode_field]
    by_cases hhash : (Datum.tuple ds).hashable = true
    · have hall : ∀ d ∈ ds, d.hashable = true := by
        rwa [Datum.hashable, Datum.allHashable_iff] at hhash
      have hexact : decodeElems decodeNumber js = .ok ds := by
        refine decodeElems_encodeAll (encodeAll_eq_ok hjs) fun d hmem j hj => ?_
        obtain ⟨d', hd', heq⟩ := ih d hmem hj
        rw [hd', heq (hall d hmem)]
      rw [hexact]
      exact ⟨.tuple ds, rfl, fun _ => rfl⟩
    · obtain ⟨ds', hds, -⟩ := decodeElems_eq_ok (P := fun _ => True) fun j (hj : j ∈ js) => by
        obtain ⟨d, hmem, hd⟩ := mem_right (encodeAll_eq_ok hjs) hj
        obtain ⟨d', hd', -⟩ := ih d hmem hd
        exact ⟨d', hd', trivial⟩
      rw [hds]
      exact ⟨.tuple ds', rfl, fun h => absurd h hhash⟩
  | set hkey _ ih =>
    rw [encode] at h
    obtain ⟨js, hjs, h⟩ := bind_eq_ok h
    cases h
    rw [decode_field]
    obtain ⟨ds, hds, hall⟩ := decodeElems_eq_ok (P := fun d => d.hashable = true)
      fun j (hj : j ∈ sortByText js) => by
        obtain ⟨d, hmem, hd⟩ := mem_right (encodeAll_eq_ok hjs) (mem_sortByText.mp hj)
        obtain ⟨d', hd', heq⟩ := ih d hmem hd
        exact ⟨d', hd', by rw [heq (hkey d hmem)]; exact hkey d hmem⟩
    obtain ⟨d, hset⟩ := setOf_eq_ok hall
    rw [hds]
    exact ⟨d, hset, fun h => by simp [Datum.hashable] at h⟩
  | dict hkey _ _ ih ih' =>
    rw [encode] at h
    obtain ⟨js, hjs, h⟩ := bind_eq_ok h
    cases h
    rw [decode_field]
    obtain ⟨ds, hds, hall⟩ := decodeElems_eq_ok
      (P := fun d => ∃ k v, d = .list [k, v] ∧ k.hashable = true)
      fun j (hj : j ∈ sortByText js) => by
        obtain ⟨e, hmem, k, v, hk, hv, rfl⟩ :=
          mem_right (encodeEntries_eq_ok hjs) (mem_sortByText.mp hj)
        obtain ⟨k', hk', heq⟩ := ih e hmem hk
        obtain ⟨v', hv', -⟩ := ih' e hmem hv
        refine ⟨.list [k', v'], decode_pair hk' hv', k', v', rfl, ?_⟩
        rw [heq (hkey e hmem)]
        exact hkey e hmem
    obtain ⟨d, hdict⟩ := dictOf_eq_ok hall
    rw [hds]
    exact ⟨d, hdict, fun h => by simp [Datum.hashable] at h⟩
  | builtin name =>
    rw [encode] at h
    cases h
  | closure id name pattern body =>
    rw [encode] at h
    cases h

/-- The stored text of sound data can be read, unless it is nested too deep. -/
theorem unmarshal_marshal {d : Datum} (hd : d.Sound) {j : Json} (hj : encode d = .ok j)
    (hdepth : j.depth ≤ Json.maxDepth) : ∃ d', unmarshal j.text = .ok d' := by
  obtain ⟨d', hd', -⟩ := decode_encode hd hj
  refine ⟨d', ?_⟩
  unfold unmarshal Json.text
  rw [String.toList_ofList, Json.readFirst_write (encode_proper hj) hdepth]
  exact hd'

theorem mem_insert {κ α : Type} {same : κ → Bool} {k : κ} {v : α} {entries : List (κ × α)}
    {e : κ × α} (h : e ∈ Keyed.insert same k v entries) : e = (k, v) ∨ e ∈ entries := by
  induction entries with
  | nil => exact Or.inl (List.mem_singleton.mp h)
  | cons d entries ih =>
    unfold Keyed.insert at h
    split at h
    · exact (List.mem_cons.mp h).imp_right (List.mem_cons_of_mem d)
    · rcases List.mem_cons.mp h with rfl | h
      · exact Or.inr List.mem_cons_self
      · exact (ih h).imp_right (List.mem_cons_of_mem d)

theorem mem_insertElem {κ : Type} {same : κ → Bool} {k e : κ} {elems : List κ}
    (h : e ∈ Keyed.insertElem same k elems) : e = k ∨ e ∈ elems := by
  induction elems with
  | nil => exact Or.inl (List.mem_singleton.mp h)
  | cons d elems ih =>
    unfold Keyed.insertElem at h
    split at h
    · exact (List.mem_cons.mp h).imp_right (List.mem_cons_of_mem d)
    · rcases List.mem_cons.mp h with rfl | h
      · exact Or.inr List.mem_cons_self
      · exact (ih h).imp_right (List.mem_cons_of_mem d)

theorem mem_ofEntries {κ α : Type} [BEq κ] {entries : List (κ × α)} {e : κ × α}
    (h : e ∈ Keyed.ofEntries entries) : e ∈ entries := by
  have hfold (rest acc : List (κ × α))
      (h : e ∈ rest.foldl (fun acc e => Keyed.insert (· == e.1) e.1 e.2 acc) acc) :
      e ∈ acc ∨ e ∈ rest := by
    induction rest generalizing acc with
    | nil => exact Or.inl h
    | cons d rest ih =>
      rcases ih _ h with h | h
      · rcases mem_insert h with rfl | h
        · exact Or.inr List.mem_cons_self
        · exact Or.inl h
      · exact Or.inr (List.mem_cons_of_mem _ h)
  rcases hfold entries [] h with h | h
  · cases h
  · exact h

theorem sound_setOf {ds : List Datum} {d : Datum} (hset : setOf ds = .ok d) : d.Sound := by
  obtain ⟨elems, helems, hd⟩ := bind_eq_ok hset
  cases hd
  have := foldlM_invariant (P := fun acc => ∀ e ∈ acc, e.hashable = true) ?_ (by simp) helems
  · exact .set this fun d hd => Datum.sound_of_hashable (this d hd)
  · intro acc d hd acc' hacc heq
    split at heq
    · next hhash =>
      cases heq
      intro e he
      rcases mem_insertElem he with rfl | he
      · exact hhash
      · exact hacc e he
    · cases heq

theorem sound_dictOf {ds : List Datum} (h : ∀ d ∈ ds, d.Sound) {d : Datum}
    (hdict : dictOf ds = .ok d) : d.Sound := by
  obtain ⟨entries, hentries, hd⟩ := bind_eq_ok hdict
  cases hd
  have := foldlM_invariant (P := fun acc => ∀ e ∈ acc, e.1.hashable = true ∧ e.2.Sound) ?_ (by simp)
    hentries
  · exact .dict (fun e he => (this e he).1) (fun e he => Datum.sound_of_hashable (this e he).1)
      fun e he => (this e he).2
  · intro acc d hd acc' hacc heq
    split at heq
    · next k v =>
      split at heq
      · next hhash =>
        cases heq
        intro e he
        rcases mem_insert he with rfl | he
        · cases h _ hd with
          | list hall => exact ⟨hhash, hall v (by simp)⟩
        · exact hacc e he
      · cases heq
    · cases heq

theorem sound_collection {kind : String} {ds : List Datum} (h : ∀ d ∈ ds, d.Sound) {d : Datum}
    (hd : collection kind ds = .ok d) : d.Sound := by
  unfold collection at hd
  split at hd
  · cases hd
    exact .tuple h
  · split at hd
    · exact sound_setOf hd
    · split at hd
      · exact sound_dictOf h hd
      · cases hd

/-- `P` holds of atoms and passes to lists and to the collections that objects stand for. -/
structure Closed (P : Datum → Prop) : Prop where
  atom : ∀ a, P (.atom a)
  list : ∀ {ds}, (∀ d ∈ ds, P d) → P (.list ds)
  collection : ∀ {kind ds d}, (∀ e ∈ ds, P e) → collection kind ds = .ok d → P d

mutual

theorem Closed.of_decodeWith {P : Datum → Prop} (hP : Closed P) {number : String → Except Reason Datum}
    (hnumber : ∀ text d, number text = .ok d → P d) {j : Json} {d : Datum}
    (h : decodeWith number j = .ok d) : P d := by
  match j with
  | .null =>
    rw [decodeWith] at h
    cases h
    exact hP.atom _
  | .bool b =>
    rw [decodeWith] at h
    cases h
    exact hP.atom _
  | .num text =>
    rw [decodeWith] at h
    exact hnumber text d h
  | .str s =>
    rw [decodeWith] at h
    unfold decodeString at h
    split at h
    · cases h
      exact hP.atom _
    · cases h
      exact hP.atom _
    · cases h
  | .arr js =>
    rw [decodeWith] at h
    obtain ⟨ds, hds, h⟩ := bind_eq_ok h
    cases h
    exact hP.list (hP.of_decodeElems hnumber hds)
  | .obj fields =>
    rw [decodeWith] at h
    split at h
    · next kind elems hone =>
      obtain ⟨ds, hds, h⟩ := bind_eq_ok h
      have hmem : (kind, elems) ∈ decodeFields number fields := mem_ofEntries (by rw [hone]; simp)
      exact hP.collection (hP.of_decodeFields hnumber hmem hds) h
    · cases h

theorem Closed.of_decodeElems {P : Datum → Prop} (hP : Closed P) {number : String → Except Reason Datum}
    (hnumber : ∀ text d, number text = .ok d → P d) {js : List Json} {ds : List Datum}
    (h : decodeElems number js = .ok ds) : ∀ d ∈ ds, P d := by
  match js with
  | [] =>
    rw [decodeElems] at h
    cases h
    simp
  | j :: js =>
    rw [decodeElems] at h
    obtain ⟨d, hd, h⟩ := bind_eq_ok h
    obtain ⟨ds, hds, h⟩ := bind_eq_ok h
    cases h
    rintro e (_ | ⟨_, he⟩)
    · exact hP.of_decodeWith hnumber hd
    · exact hP.of_decodeElems hnumber hds e he

theorem Closed.of_decodeFields {P : Datum → Prop} (hP : Closed P) {number : String → Except Reason Datum}
    (hnumber : ∀ text d, number text = .ok d → P d) {fields : List (String × Json)}
    {name : String} {elems : Except Reason (List Datum)}
    (hmem : (name, elems) ∈ decodeFields number fields) {ds : List Datum} (h : elems = .ok ds) :
    ∀ d ∈ ds, P d := by
  match fields with
  | [] =>
    rw [decodeFields] at hmem
    cases hmem
  | (field, j) :: fields =>
    rw [decodeFields.eq_def] at hmem
    rcases List.mem_cons.mp hmem with heq | hmem
    · obtain ⟨-, rfl⟩ := Prod.mk.inj heq
      match j with
      | .arr js => exact hP.of_decodeElems hnumber h
      | .null => cases h
      | .bool _ => cases h
      | .num _ => cases h
      | .str _ => cases h
      | .obj _ => cases h
    · exact hP.of_decodeFields hnumber hmem h

end

theorem atom_of_decodeNumber {text : String} {d : Datum} (h : decodeNumber text = .ok d) :
    ∃ a, d = .atom a := by
  unfold decodeNumber at h
  dsimp only at h
  split at h
  · cases h
    exact ⟨_, rfl⟩
  · split at h
    · cases h
    · cases h
      exact ⟨_, rfl⟩

theorem Closed.of_unmarshal {P : Datum → Prop} (hP : Closed P) {text : String} {d : Datum}
    (h : unmarshal text = .ok d) : P d := by
  unfold unmarshal at h
  split at h
  · cases h
  · split at h
    · cases h
    · refine hP.of_decodeWith (fun text d hd => ?_) h
      obtain ⟨a, rfl⟩ := atom_of_decodeNumber hd
      exact hP.atom a

theorem closed_sound : Closed Datum.Sound where
  atom := .atom
  list := .list
  collection := fun h hd => sound_collection h hd

theorem sound_of_unmarshal {text : String} {d : Datum} (h : unmarshal text = .ok d) : d.Sound :=
  closed_sound.of_unmarshal h

theorem mapM_eq_ok {ε α β : Type} {f : α → Except ε β} {as : List α} {bs : List β}
    (h : as.mapM f = .ok bs) : ∀ b ∈ bs, ∃ a ∈ as, f a = .ok b := by
  induction as generalizing bs with
  | nil =>
    cases h
    simp
  | cons a as ih =>
    rw [List.mapM_cons] at h
    obtain ⟨b, hb, h⟩ := bind_eq_ok h
    obtain ⟨bs, hbs, h⟩ := bind_eq_ok h
    cases h
    rintro c (_ | ⟨_, hc⟩)
    · exact ⟨a, by simp, hb⟩
    · obtain ⟨d, hd, hfd⟩ := ih hbs c hc
      exact ⟨d, by simp [hd], hfd⟩

/-- `P` holds of atoms and passes to lists and to dicts with atoms as keys. -/
structure PlainClosed (P : Datum → Prop) : Prop where
  atom : ∀ a, P (.atom a)
  list : ∀ {ds}, (∀ d ∈ ds, P d) → P (.list ds)
  dict : ∀ {es : List (Datum × Datum)}, (∀ e ∈ es, ∃ a, e.1 = .atom a) → (∀ e ∈ es, P e.2) → P (.dict es)

mutual

theorem PlainClosed.of_decodePlain {P : Datum → Prop} (hP : PlainClosed P) {j : Json} {d : Datum}
    (h : decodePlain j = .ok d) : P d := by
  match j with
  | .null =>
    rw [decodePlain] at h
    cases h
    exact hP.atom _
  | .bool b =>
    rw [decodePlain] at h
    cases h
    exact hP.atom _
  | .num text =>
    rw [decodePlain] at h
    obtain ⟨a, rfl⟩ := atom_of_decodeNumber h
    exact hP.atom a
  | .str s =>
    rw [decodePlain] at h
    cases h
    exact hP.atom _
  | .arr js =>
    rw [decodePlain] at h
    obtain ⟨ds, hds, h⟩ := bind_eq_ok h
    cases h
    exact hP.list (hP.of_decodePlainElems hds)
  | .obj fields =>
    rw [decodePlain] at h
    obtain ⟨entries, hentries, h⟩ := bind_eq_ok h
    cases h
    have hall : ∀ e ∈ entries, (∃ a, e.1 = .atom a) ∧ P e.2 := by
      intro e he
      obtain ⟨⟨name, value⟩, hmem, heq⟩ := mapM_eq_ok hentries e he
      obtain ⟨d, hd, heq⟩ := bind_eq_ok heq
      cases heq
      exact ⟨⟨_, rfl⟩, hP.of_decodePlainFields (mem_ofEntries hmem) hd⟩
    exact hP.dict (fun e he => (hall e he).1) fun e he => (hall e he).2

theorem PlainClosed.of_decodePlainElems {P : Datum → Prop} (hP : PlainClosed P) {js : List Json}
    {ds : List Datum} (h : decodePlainElems js = .ok ds) : ∀ d ∈ ds, P d := by
  match js with
  | [] =>
    rw [decodePlainElems] at h
    cases h
    simp
  | j :: js =>
    rw [decodePlainElems] at h
    obtain ⟨d, hd, h⟩ := bind_eq_ok h
    obtain ⟨ds, hds, h⟩ := bind_eq_ok h
    cases h
    rintro e (_ | ⟨_, he⟩)
    · exact hP.of_decodePlain hd
    · exact hP.of_decodePlainElems hds e he

theorem PlainClosed.of_decodePlainFields {P : Datum → Prop} (hP : PlainClosed P)
    {fields : List (String × Json)} {name : String} {value : Except Reason Datum}
    (hmem : (name, value) ∈ decodePlainFields fields) {d : Datum} (h : value = .ok d) : P d := by
  match fields with
  | [] =>
    rw [decodePlainFields] at hmem
    cases hmem
  | (field, j) :: fields =>
    rw [decodePlainFields] at hmem
    rcases List.mem_cons.mp hmem with heq | hmem
    · obtain ⟨-, rfl⟩ := Prod.mk.inj heq
      exact hP.of_decodePlain h
    · exact hP.of_decodePlainFields hmem h

end

theorem plainClosed_sound : PlainClosed Datum.Sound where
  atom := .atom
  list := .list
  dict := by
    intro es hkeys hvalues
    refine .dict ?_ ?_ hvalues <;> intro e he <;> obtain ⟨a, ha⟩ := hkeys e he <;> rw [ha]
    · rfl
    · exact .atom a

end Codec

end EventTally
