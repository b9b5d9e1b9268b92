import XcRos.Foundation.Delimiter
import XcRos.Msg.Texts

/-! # The full text of a message

`compute_full_text` writes the text of a message and behind it, each under a ruler and its type, the
texts of all its dependencies; `generate_dynamic` takes such a text apart again. Before it does, it
replaces `roslib/Header` wherever it stands.
-/

namespace XcRos.Msg

open XcRos.Foundation Relation

/-- `'='*80` -/
def ruler : Str := List.replicate 80 '='

/-! ## Writing -/

/-- `_unique_deps` -/
def uniqueDeps (depList : List Str) : List Str :=
  depList.foldl (fun uniques d => if uniques.contains d then uniques else uniques ++ [d]) []

/-- What the loop over the dependencies writes; a dependency that is not registered is a `KeyError`. -/
def writeDepends (messages : MsgContext) : List Str → Except DependError Str
  | [] => .ok []
  | d :: rest =>
    match messages.getRegistered d with
    | none => .error (.key d)
    | some spec =>
      match writeDepends messages rest with
      | .error e => .error e
      | .ok buff => .ok (ruler ++ '\n' :: (str "MSG: " ++ d ++ '\n' :: (spec.text ++ '\n' :: buff)))

def computeFullText (ctx : DependContext) (fuel : Nat) (spec : MsgSpec) : Option (Except DependError Str) :=
  match getAllDepends ctx.dependencies fuel spec.fullName with
  | none => none
  | some (.error e) => some (.error e)
  | some (.ok all) =>
    match writeDepends ctx.messages (uniqueDeps all) with
    | .error e => some (.error e)
    | .ok buff => some (.ok (spec.text ++ '\n' :: buff).dropLast)

/-! ## Taking apart -/

/-- `MsgGenerationException`, and what the loader raises. -/
inductive DynamicError where
  | missingHeader
  | load (e : LoadError)
deriving DecidableEq, Repr

def roslibHeader : Str := str "roslib/Header"

/-- What `generate_dynamic` splits: the core message, and the dependencies with their types. -/
def dynamicSplits (msgCat : Str) : List Str :=
  splitAround ('\n' :: (ruler ++ ['\n'])) 0 (replaceAll roslibHeader headerFullName 0 msgCat)

def dependentType (depMsg : Str) : Except DynamicError (Str × Str) :=
  let line1 := find '\n' depMsg
  let msgLine := slice depMsg 0 line1
  if (str "MSG: ").isPrefixOf msgLine then
    .ok (strip (msgLine.drop 5), slice depMsg (line1 + 1) depMsg.length)
  else .error .missingHeader

/-- `_generate_dynamic_specs` -/
def generateDynamicSpecs {F : Type} (py : Python F) (messages : MsgContext) (depMsg : Str) :
    Except DynamicError ((Str × LoadedSpec F) × MsgContext) :=
  match dependentType depMsg with
  | .error e => .error e
  | .ok (depType, text) =>
    match loadMsgFromString py messages text depType with
    | .error e => .error (.load e)
    | .ok (loaded, messages) => .ok ((depType, loaded), messages)

def dependentTypes : List Str → Except DynamicError (List (Str × Str))
  | [] => .ok []
  | depMsg :: rest =>
    match dependentType depMsg with
    | .error e => .error e
    | .ok part =>
      match dependentTypes rest with
      | .error e => .error e
      | .ok parts => .ok (part :: parts)

def dynamicTexts (msgCat : Str) : Except DynamicError (Str × List (Str × Str)) :=
  match dependentTypes (dynamicSplits msgCat).tail with
  | .error e => .error e
  | .ok parts => .ok ((dynamicSplits msgCat).headD [], parts)

/-! ## What is to be found in the parts -/

/-- One part for each type of the closure, with the text that is registered for it. -/
structure Separates (ctx : DependContext) (name : Str) (parts : List (Str × Str)) : Prop where
  distinct : (parts.map Prod.fst).Nodup
  types : ∀ d, d ∈ parts.map Prod.fst ↔ TransGen (FieldOf ctx.messages) name d
  texts : ∀ part ∈ parts, ∃ sub, ctx.messages.getRegistered part.1 = some sub ∧ part.2 = sub.text

/-- The full text is taken apart into the text of the message and those of its dependencies. -/
def FullTextSplits (ctx : DependContext) (spec : MsgSpec) : Prop :=
  ∃ fuel text parts, computeFullText ctx fuel spec = some (.ok text) ∧ dynamicTexts text = .ok (spec.text, parts) ∧
    Separates ctx spec.fullName parts

/-! ## The dependencies once -/

theorem uniqueDeps_foldl {depList uniques : List Str} (h : uniques.Nodup) :
    (depList.foldl (fun uniques d => if uniques.contains d then uniques else uniques ++ [d]) uniques).Nodup ∧
      ∀ d, d ∈ depList.foldl (fun uniques d => if uniques.contains d then uniques else uniques ++ [d]) uniques ↔
        d ∈ uniques ∨ d ∈ depList := by
  induction depList generalizing uniques with
  | nil => exact ⟨h, fun d => ⟨.inl, fun hd => hd.elim id fun hd => absurd hd List.not_mem_nil⟩⟩
  | cons first rest ih =>
    rw [List.foldl_cons]
    split
    · rename_i hContains
      have hMem : first ∈ uniques := List.contains_iff_mem.mp hContains
      obtain ⟨hNodup, hAll⟩ := ih h
      refine ⟨hNodup, fun d => (hAll d).trans ⟨?_, ?_⟩⟩
      · exact fun hd => hd.imp_right (List.mem_cons_of_mem first)
      · rintro (hd | hd)
        · exact .inl hd
        · obtain rfl | hd := List.mem_cons.mp hd
          · exact .inl hMem
          · exact .inr hd
    · rename_i hContains
      have hNew : first ∉ uniques := fun hMem => hContains (List.contains_iff_mem.mpr hMem)
      obtain ⟨hNodup, hAll⟩ := ih (List.Nodup.append h (List.nodup_singleton first)
        (List.disjoint_singleton.mpr hNew))
      refine ⟨hNodup, fun d => (hAll d).trans ?_⟩
      rw [List.mem_append, List.mem_singleton, List.mem_cons, or_assoc]

theorem nodup_uniqueDeps (depList : List Str) : (uniqueDeps depList).Nodup := (uniqueDeps_foldl List.nodup_nil).1

theorem mem_uniqueDeps {depList : List Str} {d : Str} : d ∈ uniqueDeps depList ↔ d ∈ depList := by
  rw [uniqueDeps, (uniqueDeps_foldl List.nodup_nil).2 d]
  exact ⟨fun h => h.resolve_left List.not_mem_nil, .inr⟩

/-! ## What is written -/

def textOf (messages : MsgContext) (d : Str) : Str := ((messages.getRegistered d).map (·.text)).getD []

def depMsg (d text : Str) : Str := str "MSG: " ++ d ++ '\n' :: text

theorem writeDepends_eq {messages : MsgContext} {ds : List Str} (h : ∀ d ∈ ds, (messages.getRegistered d).isSome)
    (text : Str) : ∃ buff, writeDepends messages ds = .ok buff ∧ (text ++ '\n' :: buff).dropLast =
      ('\n' :: (ruler ++ ['\n'])).intercalate (text :: ds.map fun d => depMsg d (textOf messages d)) := by
  induction ds generalizing text with
  | nil =>
    refine ⟨[], rfl, ?_⟩
    rw [List.dropLast_concat, List.map_nil, List.intercalate_singleton]
  | cons d ds ih =>
    obtain ⟨sub, hSub⟩ := Option.isSome_iff_exists.mp (h d List.mem_cons_self)
    have hText : textOf messages d = sub.text := by
      rw [textOf, hSub]
      rfl
    obtain ⟨buff, hBuff, hJoined⟩ := ih (fun e he => h e (List.mem_cons_of_mem d he)) (depMsg d sub.text)
    refine ⟨ruler ++ '\n' :: (str "MSG: " ++ d ++ '\n' :: (sub.text ++ '\n' :: buff)), ?_, ?_⟩
    · rw [writeDepends, hSub]
      dsimp only
      rw [hBuff]
    · have hParts : text ++ '\n' :: (ruler ++ '\n' :: (str "MSG: " ++ d ++ '\n' :: (sub.text ++ '\n' :: buff))) =
          text ++ '\n' :: (ruler ++ ['\n']) ++ (depMsg d sub.text ++ '\n' :: buff) := by
        simp [depMsg]
      rw [hParts, List.dropLast_append_of_ne_nil (by simp), hJoined, List.map_cons, List.intercalate_cons_cons, hText]

theorem registered_of_writeDepends {messages : MsgContext} {ds : List Str} {buff : Str}
    (h : writeDepends messages ds = .ok buff) : ∀ d ∈ ds, (messages.getRegistered d).isSome := by
  induction ds generalizing buff with
  | nil => exact fun d hd => absurd hd List.not_mem_nil
  | cons d ds ih =>
    rw [writeDepends] at h
    cases hSpec : messages.getRegistered d with
    | none =>
      rw [hSpec] at h
      cases h
    | some spec =>
      rw [hSpec] at h
      dsimp only at h
      cases hRest : writeDepends messages ds with
      | error e =>
        rw [hRest] at h
        cases h
      | ok rest => exact List.forall_mem_cons.mpr ⟨by rw [hSpec]; rfl, ih hRest⟩

def Records (dependencies : Str → Option (List Str)) (name dependency : Str) : Prop :=
  ∃ depends, dependencies name = some depends ∧ dependency ∈ depends

theorem extendAll_ok {below : Str → Option (Except DependError (List Str))} {ds all : List Str}
    (h : extendAll below ds = some (.ok all)) : ∀ d ∈ ds, ∃ deps, below d = some (.ok deps) := by
  induction ds generalizing all with
  | nil => exact fun d hd => absurd hd List.not_mem_nil
  | cons d ds ih =>
    rw [extendAll] at h
    split at h
    · cases h
    · cases h
    · rename_i deps hDeps
      split at h
      · cases h
      · cases h
      · rename_i rest hRest
        exact List.forall_mem_cons.mpr ⟨⟨deps, hDeps⟩, ih hRest⟩

theorem mem_getAllDepends {dependencies : Str → Option (List Str)} {fuel : Nat} {name : Str} {all : List Str}
    (h : getAllDepends dependencies fuel name = some (.ok all)) (d : Str) :
    d ∈ all ↔ TransGen (Records dependencies) name d := by
  induction fuel generalizing name all d with
  | zero => cases h
  | succ fuel ih =>
    cases hRecorded : dependencies name with
    | none =>
      rw [getAllDepends, fuelled, hRecorded] at h
      cases h
    | some depends =>
      have hExtend : extendAll (getAllDepends dependencies fuel) depends = some (.ok all) := by
        rw [getAllDepends, fuelled, hRecorded] at h
        exact h
      have hBelow : ∀ c ∈ depends, ∀ out, getAllDepends dependencies fuel c = some out →
          ∃ all, out = .ok all ∧ ∀ x, x ∈ all ↔ TransGen (Records dependencies) c x := by
        intro c hc out hOut
        obtain ⟨deps, hDeps⟩ := extendAll_ok hExtend c hc
        cases hDeps.symm.trans hOut
        exact ⟨deps, rfl, fun x => ih hDeps x⟩
      obtain ⟨listed, hListed, hMem⟩ := extendAll_mem hBelow hExtend
      cases hListed
      rw [hMem, TransGen.head'_iff]
      constructor
      · rintro ⟨c, hc, hPath⟩
        exact ⟨c, ⟨depends, hRecorded, hc⟩, hPath⟩
      · rintro ⟨c, ⟨depends', hSame, hc⟩, hPath⟩
        cases hRecorded.symm.trans hSame
        exact ⟨c, hc, hPath⟩

theorem computeFullText_eq {ctx : DependContext} {fuel : Nat} {spec : MsgSpec} {text : Str}
    (h : computeFullText ctx fuel spec = some (.ok text)) :
    ∃ ds : List Str, (∀ d, d ∈ ds ↔ TransGen (Records ctx.dependencies) spec.fullName d) ∧
      text = ('\n' :: (ruler ++ ['\n'])).intercalate (spec.text :: ds.map fun d => depMsg d (textOf ctx.messages d)) := by
  rw [computeFullText] at h
  split at h
  · cases h
  · cases h
  · rename_i all hAll
    split at h
    · cases h
    · rename_i buff hBuff
      cases h
      obtain ⟨written, hWritten, hJoined⟩ := writeDepends_eq (registered_of_writeDepends hBuff) spec.text
      cases hBuff.symm.trans hWritten
      exact ⟨uniqueDeps all, fun d => mem_uniqueDeps.trans (mem_getAllDepends hAll d), hJoined⟩

/-! ## What the parts are -/

variable {F : Type} {py : Python F}

theorem not_mem_of_accepted {package : Str} {lines : List Str} {ds : List (Declaration F)}
    (h : loadLines py package lines = .ok ds) : ruler ∉ lines := by
  intro hLine
  obtain ⟨fs, hLoad⟩ := loadLines_accepts h hLine
  have hClean : stripComments ruler = ruler := by decide +kernel
  have hTokens : tokens ruler = [ruler] := by decide +kernel
  have hType : isValidConstantType ruler = false := by decide +kernel
  have hSome : ruler ≠ [] := by decide
  have hEquals : '=' ∈ ruler := by decide
  rw [loadLine, hClean] at hLoad
  rw [if_neg hSome, if_pos hEquals, loadConstantLine, hClean, hTokens] at hLoad
  simp [hType, Except.map] at hLoad

theorem dependentType_depMsg {d : Str} (hd : Word d) (text : Str) : dependentType (depMsg d text) = .ok (d, text) := by
  have hNewline : '\n' ∉ str "MSG: " ++ d := by
    intro hMem
    obtain hMem | hMem := List.mem_append.mp hMem
    · exact absurd hMem (by decide)
    · exact absurd (hd.noBlank '\n' hMem) (by decide)
  have hFind := find_append_cons hNewline text
  have hFront := slice_between [] (str "MSG: " ++ d) ('\n' :: text)
  have hBack := slice_from (str "MSG: " ++ d ++ ['\n']) text
  rw [List.nil_append] at hFront
  rw [List.length_append, List.append_assoc (str "MSG: " ++ d) ['\n'] text] at hBack
  have hPrefix : (str "MSG: ").isPrefixOf (str "MSG: " ++ d) = true :=
    List.isPrefixOf_iff_prefix.mpr (List.prefix_append _ _)
  have hDrop : (str "MSG: " ++ d).drop 5 = d := List.drop_left' (by decide)
  rw [dependentType, depMsg, hFind]
  rw [show slice (str "MSG: " ++ d ++ '\n' :: text) 0 (str "MSG: " ++ d).length = str "MSG: " ++ d from hFront,
    if_pos hPrefix, hDrop, hd.trimmed.strip]
  exact congrArg (fun body => Except.ok (d, body)) hBack

theorem dependentTypes_map {ds : List Str} (names texts : Str → Str) (h : ∀ d ∈ ds, Word (names d)) :
    dependentTypes (ds.map fun d => depMsg (names d) (texts d)) = .ok (ds.map fun d => (names d, texts d)) := by
  induction ds with
  | nil => rfl
  | cons d ds ih =>
    rw [List.map_cons, dependentTypes, dependentType_depMsg (h d List.mem_cons_self),
      ih fun e he => h e (List.mem_cons_of_mem d he), List.map_cons]

end XcRos.Msg
