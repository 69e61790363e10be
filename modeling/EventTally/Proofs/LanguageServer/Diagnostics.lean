import EventTally.LanguageServer.Connection
import EventTally.Proofs.Keyed
import Mathlib.Data.List.Induction

/-! # Published diagnostics

What the server finds in a document is published beside the server, so messages go on to be handled
before it is sent, and what was found later may be sent earlier. A `Desk` is a server with the
publications that were started and those that were sent; its runs are all orders of messages and sends.

The server keeps the text that the last message about a document came with (`find?_run`), and this text
alone decides what hover and completion answer. Publications are never lost, but they are only as current
as the order in which they are sent: the diagnostics sent last are those of the latest text if no older
publication about the document is sent after it (`diagnostics_current`). If a change comes with several
texts the server keeps the first of them, where the last one would be the latest.
-/

namespace EventTally.LanguageServer

/-- What a message says of a document. The texts of a change replace the document one after another. -/
inductive Edit where
  | opened (text : String)
  | changed (first : String) (later : List String)
  | closed
  deriving DecidableEq, Repr

namespace Edit

/-- The text of the document after the edit, if it is open then. -/
def text? : Edit → Option String
  | .opened text => some text
  | .changed first later => some (later.getLastD first)
  | .closed => none

/-- The text that the server keeps. -/
def kept? : Edit → Option String
  | .opened text | .changed text _ => some text
  | .closed => none

def ofChanges? (uri : String) : List String → Option (String × Edit)
  | [] => none
  | first :: later => some (uri, .changed first later)

def texts? (params : Json) : Option (List String) :=
  match member "contentChanges" params with
  | some (.arr cs) => cs.mapM changeOf
  | _ => none

/-- The document that a message is about and what it says of it. A message that is refused says
nothing. -/
def of? (m : Message) : Option (String × Edit) :=
  match Request.of m.method m.params with
  | .ok (.didOpen uri text) => some (uri, .opened text)
  | .ok (.didChange uri _) => ((m.params.bind texts?).bind (ofChanges? uri))
  | .ok (.didClose uri) => some (uri, .closed)
  | _ => none

def publication? (uri : String) (e : Edit) : Option Publication :=
  e.kept?.map fun text => { uri, problem := problem? uri text }

end Edit

/-- Keeps the text of a document, or forgets it. -/
def Server.keep (s : Server) (uri : String) : Option String → Server
  | some text => s.setText uri text
  | none => s.forget uri

/-- A server, what has been published by it, in the order in which the publications were started, and
which of the publications have been sent, in the order in which they were sent. -/
structure Desk where
  server : Server
  started : List Publication
  sent : List Nat

inductive Action where
  | message (m : Message)
  | send (i : Nat)

/-- What an action makes of a document. -/
def Action.edit? (uri : String) : Action → Option Edit
  | .message m => (Edit.of? m).bind fun (uri', e) => if uri' = uri then some e else none
  | .send _ => none

namespace Desk

def initial : Desk := { server := .initial, started := [], sent := [] }

/-- A message is handled, or a publication is sent that was pending. -/
def step (d : Desk) : Action → Desk
  | .message m =>
    match Request.of m.method m.params with
    | .error _ => d
    | .ok r =>
      { d with
        server := (d.server.answer r).server
        started := d.started ++ (d.server.answer r).publication.toList }
  | .send i => if i < d.started.length ∧ i ∉ d.sent then { d with sent := d.sent ++ [i] } else d

def run (acts : List Action) : Desk := acts.foldl step initial

/-- The edit that was last made of a document. -/
def edit? (acts : List Action) (uri : String) : Option Edit := acts.reverse.findSome? (·.edit? uri)

/-- Hover and completion use a text for a document. -/
structure Uses (d : Desk) (uri text : String) : Prop where
  kept : d.server.text uri = text
  hover : ∀ p, (d.server.answer (.hover uri p)).result = hoverJson (describe? text (p.toOffset text))
  completion : ∀ p, (d.server.answer (.completion uri p)).result =
    .arr ((completions text (p.toOffset text)).1.map (itemJson (completions text (p.toOffset text)).2))

def Concerns (d : Desk) (uri : String) (i : Nat) : Prop := ∃ p, d.started[i]? = some p ∧ p.uri = uri

instance (d : Desk) (uri : String) (i : Nat) : Decidable (d.Concerns uri i) :=
  decidable_of_iff (∃ p ∈ d.started[i]?, p.uri = uri) Iff.rfl

/-- No publication is pending. -/
def Idle (d : Desk) : Prop := ∀ i < d.started.length, i ∈ d.sent

def lastSent? (d : Desk) (uri : String) : Option Nat :=
  (d.sent.filter fun i => d.Concerns uri i).getLast?

/-- What was last published about a document. -/
def published? (d : Desk) (uri : String) : Option Publication := (d.lastSent? uri).bind (d.started[·]?)

/-- The publication about a document that was sent last is the one that was started last. -/
def Timely (d : Desk) (uri : String) : Prop :=
  ∀ i, d.lastSent? uri = some i → ∀ j, d.Concerns uri j → j ≤ i

end Desk

theorem didChangeOf_of_request {method : String} {params : Option Json} {uri first : String}
    (h : Request.of method params = .ok (.didChange uri first)) :
    params.bind didChangeOf = some (.didChange uri first) := by
  unfold Request.of at h
  dsimp only at h
  split at h
  case h_1 | h_2 | h_3 | h_4 | h_5 | h_11 => cases h
  case h_7 =>
    split at h
    · next r hr => rw [hr, Except.ok.inj h]
    · cases h
  all_goals
    split at h
    · next r hr =>
      obtain ⟨j, -, hj⟩ := Option.bind_eq_some_iff.mp (hr.trans (congrArg some (Except.ok.inj h)))
      simp [didOpenOf, didCloseOf, hoverOf, completionOf, Option.bind_eq_some_iff] at hj
    · cases h

theorem texts?_of_didChangeOf {params : Json} {uri first : String}
    (h : didChangeOf params = some (.didChange uri first)) :
    ∃ later, Edit.texts? params = some (first :: later) := by
  simp only [didChangeOf, Option.bind_eq_bind, Option.bind_eq_some_iff, Option.pure_def,
    Option.some.injEq, Request.didChange.injEq] at h
  obtain ⟨-, -, -, -, -, -, -, -, changes, hchanges, text, htext, -, rfl⟩ := h
  unfold changesOf at htext
  split at htext
  · next c cs =>
    simp only [Option.bind_eq_bind, Option.bind_eq_some_iff, Option.pure_def] at htext
    obtain ⟨first, hfirst, later, hlater, heq⟩ := htext
    cases heq
    refine ⟨later, ?_⟩
    rw [Edit.texts?, hchanges]
    simp only [List.mapM_cons, hfirst, hlater]
    rfl
  · cases htext

theorem ofChanges?_of_didChange {m : Message} {uri first : String}
    (h : Request.of m.method m.params = .ok (.didChange uri first)) :
    ∃ later, Edit.of? m = some (uri, .changed first later) := by
  obtain ⟨params, hparams, hchange⟩ := Option.bind_eq_some_iff.mp (didChangeOf_of_request h)
  obtain ⟨later, htexts⟩ := texts?_of_didChangeOf hchange
  refine ⟨later, ?_⟩
  rw [Edit.of?, h, hparams]
  dsimp only [Option.bind_some]
  rw [htexts]
  rfl

namespace Desk

theorem step_message (d : Desk) (m : Message) : d.step (.message m) = match Edit.of? m with
    | none => d
    | some (uri, e) =>
      { d with
        server := d.server.keep uri e.kept?
        started := d.started ++ (e.publication? uri).toList } := by
  cases hrequest : Request.of m.method m.params with
  | error fault => simp only [step, Edit.of?, hrequest]
  | ok r =>
    have hsame : d = { d with started := d.started ++ [] } := by rw [List.append_nil]
    cases r with
    | didChange uri first =>
      obtain ⟨later, hedit⟩ := ofChanges?_of_didChange hrequest
      simp only [step, hrequest, hedit]
      rfl
    | didOpen uri text =>
      simp only [step, Edit.of?, hrequest]
      rfl
    | didClose uri =>
      simp only [step, Edit.of?, hrequest]
      rfl
    | handshake | nothing | hover | completion | exit =>
      simp only [step, Edit.of?, hrequest]
      exact hsame.symm

def Distinct (s : Server) : Prop := (s.documents.map Prod.fst).Nodup

theorem distinct_keep {s : Server} (h : Distinct s) (uri : String) (text? : Option String) :
    Distinct (s.keep uri text?) := by
  cases text? with
  | none => exact Keyed.nodup_erase_name h
  | some text => exact Keyed.nodup_insert_name text h

theorem find?_keep {s : Server} (h : Distinct s) (uri : String) (text? : Option String) (x : String) :
    Keyed.find? (· == x) (s.keep uri text?).documents =
      if uri = x then text? else Keyed.find? (· == x) s.documents := by
  cases text? with
  | none => exact (Keyed.find?_erase_name h).trans (by simp only [beq_iff_eq])
  | some text => exact (Keyed.find?_insert_name uri text s.documents).trans (by simp only [beq_iff_eq])

theorem text_step_of_ne {d : Desk} (h : Distinct d.server) {m : Message} {uri : String}
    (hm : ∀ e, Edit.of? m ≠ some (uri, e)) :
    (d.step (.message m)).server.text uri = d.server.text uri := by
  rw [step_message]
  split
  · rfl
  · next uri' e hedit =>
    have hne : uri' ≠ uri := fun heq => hm e (heq ▸ hedit)
    rw [Server.text, find?_keep h, if_neg hne]
    rfl

theorem run_concat (acts : List Action) (a : Action) : run (acts ++ [a]) = (run acts).step a := by
  rw [run, List.foldl_append]
  rfl

theorem edit?_concat (acts : List Action) (a : Action) (uri : String) :
    edit? (acts ++ [a]) uri = (a.edit? uri).or (edit? acts uri) := by
  rw [edit?, List.reverse_append, List.reverse_singleton, List.singleton_append, List.findSome?_cons]
  cases a.edit? uri <;> rfl

theorem edit?_message (acts : List Action) (m : Message) (uri : String) :
    edit? (acts ++ [.message m]) uri = match Edit.of? m with
      | some (uri', e) => if uri' = uri then some e else edit? acts uri
      | none => edit? acts uri := by
  rw [edit?_concat, Action.edit?]
  cases Edit.of? m with
  | none => rfl
  | some about =>
    dsimp only [Option.bind_some]
    split <;> rfl

theorem edit?_send (acts : List Action) (i : Nat) (uri : String) :
    edit? (acts ++ [.send i]) uri = edit? acts uri := edit?_concat ..

theorem step_send (d : Desk) (i : Nat) :
    (d.step (.send i)).server = d.server ∧ (d.step (.send i)).started = d.started := by
  simp only [step]
  split <;> exact ⟨rfl, rfl⟩

theorem distinct_run (acts : List Action) : Distinct (run acts).server := by
  induction acts using List.reverseRecOn with
  | nil => exact List.nodup_nil
  | append_singleton acts a ih =>
    rw [run_concat]
    cases a with
    | send i => exact (step_send _ i).1.symm ▸ ih
    | message m =>
      rw [step_message]
      split
      · exact ih
      · exact distinct_keep ih ..

/-- The server keeps what the last edit of a document says. -/
theorem find?_run (acts : List Action) (uri : String) :
    Keyed.find? (· == uri) (run acts).server.documents = (edit? acts uri).bind Edit.kept? := by
  induction acts using List.reverseRecOn with
  | nil => rfl
  | append_singleton acts a ih =>
    rw [run_concat]
    cases a with
    | send i => rw [edit?_send, (step_send _ i).1, ih]
    | message m =>
      rw [edit?_message, step_message]
      cases Edit.of? m with
      | none => exact ih
      | some about =>
        refine (find?_keep (distinct_run acts) ..).trans ?_
        by_cases huri : about.1 = uri
        · simp only [if_pos huri, Option.bind_some]
        · simp only [if_neg huri, ih]

theorem lt_of_concerns {d : Desk} {uri : String} {i : Nat} (h : d.Concerns uri i) :
    i < d.started.length := by
  obtain ⟨p, hp, -⟩ := h
  exact (List.getElem?_eq_some_iff.mp hp).1

/-- The publication about an open document that was started last is about the text that the server
keeps. -/
theorem exists_latest {acts : List Action} {uri text : String} {e : Edit}
    (hedit : edit? acts uri = some e) (hkept : e.kept? = some text) :
    ∃ k, (run acts).started[k]? = some { uri, problem := problem? uri text } ∧
      ∀ j, (run acts).Concerns uri j → j ≤ k := by
  induction acts using List.reverseRecOn with
  | nil => cases hedit
  | append_singleton acts a ih =>
    rw [run_concat]
    cases a with
    | send i =>
      rw [edit?_send] at hedit
      unfold Concerns
      rw [(step_send _ i).2]
      exact ih hedit
    | message m =>
      rw [edit?_message] at hedit
      rw [step_message]
      cases hof : Edit.of? m with
      | none =>
        rw [hof] at hedit
        exact ih hedit
      | some about =>
        obtain ⟨uri', e'⟩ := about
        rw [hof] at hedit
        by_cases huri : uri' = uri
        · subst huri
          obtain rfl : e' = e := by simpa using hedit
          have hpublication : (e'.publication? uri').toList =
              [{ uri := uri', problem := problem? uri' text }] := by
            rw [Edit.publication?, hkept]
            rfl
          refine ⟨(run acts).started.length, ?_, fun j hj => ?_⟩
          · simp only [hpublication, List.getElem?_concat_length]
          · have hlt := lt_of_concerns hj
            simp only [hpublication, List.length_append, List.length_singleton] at hlt
            exact Nat.le_of_lt_succ hlt
        · obtain ⟨k, hk, hlast⟩ := ih (by simpa [huri] using hedit)
          refine ⟨k, List.getElem?_append_left (List.getElem?_eq_some_iff.mp hk).1 ▸ hk, fun j hj => ?_⟩
          obtain ⟨p, hp, hpuri⟩ := hj
          rw [List.getElem?_append] at hp
          split at hp
          · exact hlast j ⟨p, hp, hpuri⟩
          · have hmem := List.mem_of_getElem? hp
            rw [Option.mem_toList] at hmem
            obtain ⟨_, -, rfl⟩ := Option.map_eq_some_iff.mp hmem
            exact absurd hpuri huri

theorem concerns_of_lastSent? {d : Desk} {uri : String} {i : Nat} (h : d.lastSent? uri = some i) :
    d.Concerns uri i := of_decide_eq_true (List.mem_filter.mp (List.mem_of_getLast? h)).2

theorem Idle.exists_lastSent {d : Desk} (h : d.Idle) {uri : String} {k : Nat} (hk : d.Concerns uri k) :
    ∃ i, d.lastSent? uri = some i := by
  have hmem : k ∈ d.sent.filter fun i => d.Concerns uri i :=
    List.mem_filter.mpr ⟨h k (lt_of_concerns hk), decide_eq_true hk⟩
  exact ⟨_, List.getLast?_eq_some_getLast (List.ne_nil_of_mem hmem)⟩

/-- If nothing is pending and no older publication was sent last, what was last published about an open
document is the problem of the text that the server keeps. -/
theorem published?_eq {acts : List Action} {uri text : String} {e : Edit}
    (hedit : edit? acts uri = some e) (hkept : e.kept? = some text) (hidle : (run acts).Idle)
    (htimely : (run acts).Timely uri) :
    (run acts).published? uri = some { uri, problem := problem? uri text } := by
  obtain ⟨k, hk, hlast⟩ := exists_latest hedit hkept
  have hconcerns : (run acts).Concerns uri k := ⟨_, hk, rfl⟩
  obtain ⟨i, hi⟩ := hidle.exists_lastSent hconcerns
  obtain rfl : i = k := Nat.le_antisymm (hlast i (concerns_of_lastSent? hi)) (htimely i hi k hconcerns)
  rw [published?, hi]
  exact hk

/-- **Diagnostics are current.** After any messages and sends, messages that say nothing of a document
leave its text. If the server kept the latest text of the last edit of the document, hover and completion
use it; and if the document is open, nothing is pending and the publication about it that was sent last was
not an older one, the diagnostics last published about it are those of its latest text. -/
theorem diagnostics_current (acts : List Action) (uri : String) :
    (∀ m, (∀ e, Edit.of? m ≠ some (uri, e)) →
      ((run acts).step (.message m)).server.text uri = (run acts).server.text uri) ∧
    ∀ e, edit? acts uri = some e → e.kept? = e.text? →
      (run acts).Uses uri (e.text?.getD "") ∧
      ∀ text, e.text? = some text → (run acts).Idle → (run acts).Timely uri →
        (run acts).published? uri = some { uri, problem := problem? uri text } := by
  refine ⟨fun m hm => text_step_of_ne (distinct_run acts) hm, fun e hedit hkept => ⟨?_, ?_⟩⟩
  · have htext : (run acts).server.text uri = e.text?.getD "" := by
      rw [Server.text, find?_run, hedit, ← hkept]
      rfl
    rw [← htext]
    exact ⟨rfl, fun p => rfl, fun p => rfl⟩
  · intro text htext hidle htimely
    exact published?_eq hedit (hkept.trans htext) hidle htimely

def opening (uri text : String) : Message :=
  { id := none
    method := "textDocument/didOpen"
    params := some (.obj [("textDocument", .obj [("uri", .str uri), ("text", .str text)])]) }

/-- Two documents are opened, and what was found in the second one is sent first. -/
def openings : List Action :=
  [.message (opening "a" "x"), .message (opening "b" "("), .send 1, .send 0]

theorem diagnostics_current_openings :
    (run openings).Uses "b" "(" ∧
      (run openings).published? "b" = some { uri := "b", problem := problem? "b" "(" } := by
  have hcurrent := (diagnostics_current openings "b").2 (.opened "(") (by decide +kernel) rfl
  refine ⟨hcurrent.1, hcurrent.2 "(" rfl ?_ fun i hi j hj => ?_⟩
  · unfold Idle
    decide +kernel
  · have hlast : (run openings).lastSent? "b" = some 1 := by decide +kernel
    have hlength : (run openings).started.length = 2 := by decide +kernel
    have hj := lt_of_concerns hj
    obtain rfl := Option.some.inj (hlast.symm.trans hi)
    omega

end Desk

end EventTally.LanguageServer
