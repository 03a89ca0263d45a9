import Funduq.Doors.Lineage

/-!
# A resolution and its one answer

A resolution signs the root of a lineage and the asks that are open, and nothing else:
no time, no nonce.  funduq counts on every pause asking under new ids.  The ids are
the provider's to choose and nobody compares them with earlier ones, so a pause that
asks under the ids of an earlier one of its lineage is answered by the earlier proof.

What is left is that a proof is good for one answer as long as no pause is answered
whose proof would sign what its signer has signed before.
-/

namespace Funduq.Doors

open Funduq.Lib Funduq.Store Funduq.Contract
open Funduq.Broker (AgentRef Status)

/-- The runs that were opened with one and the same proof. -/
def openedWith (w : World) (publicKey signature : String) : List Opening :=
  w.openings.filter fun o =>
    o.resolution.any fun r => r.signer = publicKey && r.signature = signature

variable {PrivateKey PublicKey : Type} (cfg : Config PrivateKey PublicKey)

/-- What a resolution was checked to sign. -/
def signedBytes (r : Resolution) : String := resolvePayload cfg.primitives r.root r.asks

/-- The two runs were not opened over the same bytes by the same signer. -/
def Apart (o o' : Opening) : Prop :=
  ∀ r r', o.resolution = some r → o'.resolution = some r' → r.signer = r'.signer →
    signedBytes cfg r ≠ signedBytes cfg r'

/-- No signer has signed the same twice. -/
structure OnceSigned (w : World) : Prop where
  sane : Sane w
  verified : ∀ o ∈ w.openings, ∀ r, o.resolution = some r →
    cfg.verifySignature r.signer r.signature (signedBytes cfg r) = true
  apart : w.openings.Pairwise (Apart cfg)

variable {cfg}

theorem OnceSigned.openedWith {w : World} (h : OnceSigned cfg w)
    (hbinds : ∀ key signature payload payload', cfg.verifySignature key signature payload = true →
      cfg.verifySignature key signature payload' = true → payload = payload')
    (publicKey signature : String) : (openedWith w publicKey signature).length ≤ 1 := by
  have hapart : (Doors.openedWith w publicKey signature).Pairwise (Apart cfg) := h.apart.filter _
  have hmem : ∀ o ∈ Doors.openedWith w publicKey signature, o ∈ w.openings ∧
      ∃ r, o.resolution = some r ∧ r.signer = publicKey ∧ r.signature = signature := by
    intro o ho
    obtain ⟨ho, hany⟩ := List.mem_filter.1 ho
    obtain ⟨r, hr, hproof⟩ := (Option.any_eq_true _ _).1 hany
    exact ⟨ho, r, hr, by simpa using hproof⟩
  match hl : Doors.openedWith w publicKey signature with
  | [] => exact Nat.zero_le _
  | [_] => exact Nat.le_refl _
  | o :: o' :: rest =>
      rw [hl] at hapart hmem
      obtain ⟨ho, r, hr, hkey, hsig⟩ := hmem o List.mem_cons_self
      obtain ⟨ho', r', hr', hkey', hsig'⟩ := hmem o' (List.mem_cons_of_mem _ List.mem_cons_self)
      have hne := (List.pairwise_cons.1 hapart).1 o' List.mem_cons_self r r' hr hr'
        (hkey.trans hkey'.symm)
      -- The one signature would verify over both.
      have hver := h.verified o ho r hr
      have hver' := h.verified o' ho' r' hr'
      rw [hkey, hsig] at hver
      rw [hkey', hsig'] at hver'
      exact absurd (hbinds _ _ _ _ hver hver') hne

/-! ## The condition -/

variable (cfg) in
/-- Whoever signs for the run `asked` has not signed the same before. -/
def NewToSign (w : World) (asked : RunRecord) (signer : String) : Prop :=
  ∀ root, IsRoot w asked root → ∀ o ∈ w.openings, ∀ r, o.resolution = some r →
    r.signer = signer →
    signedBytes cfg r ≠ resolvePayload cfg.primitives root (openAsks (w.getRunEvents asked.runId))

variable (cfg) in
/-- A resolution is handed in only for a pause that is new to its signer, and nobody
has named the answer before it was there. -/
def SignsAnew (_ : Request) (ws : List Write) (w : World) : Prop :=
  unforeseen ws w = true ∧ ∀ row opening asked res, .newRun row opening ∈ ws →
    opening.answers.bind w.getRun = some asked → opening.resolution = some res →
    NewToSign cfg w asked res.signer

/-! ## What a request commits -/

theorem OnceSigned.still {w w' : World} (hw : OnceSigned cfg w) (h : Still w w') :
    OnceSigned cfg w' where
  sane := h.sane hw.sane
  verified := h.openings ▸ hw.verified
  apart := h.openings ▸ hw.apart

section Commit

variable {call : Call} {held : List Name} {w : World} {front : List Write} {o : Opened}

/-- What a run with a resolution was opened over. -/
theorem Opens.resolution {W : World → Prop} (h : Opens cfg W Kin call held w front o)
    (hw : Sane w) {res : Resolution} (hres : o.resolution = some res) :
    cfg.verifySignature res.signer res.signature (signedBytes cfg res) = true ∧
      ∃ asked, o.opening.answers.bind w.getRun = some asked ∧ IsRoot w asked res.root ∧
        openAsks (w.getRunEvents asked.runId) = res.asks := by
  cases ha : o.answers with
  | none =>
      cases (h.room ha).1.symm.trans hres
  | some run =>
      obtain ⟨hawaits, hresolved⟩ := h.answers run ha
      obtain ⟨w₀, ⟨-, hmem⟩, hr⟩ := hawaits.known
      obtain ⟨asked, hmem', hp⟩ := hr.undisturbed.later.mem hmem
      rw [hres] at hresolved
      have hasks := hresolved.asks kin_undisturbed hawaits.completed
      obtain ⟨head, proof, -, -, hroot, hver⟩ := hresolved
      refine ⟨(verifyResolution_ok cfg hver).2.2.2, asked, ?_, ?_, ?_⟩
      · rw [show o.opening.answers = some run.runId by simp [Opened.opening, ha],
          Option.bind_some, ← hp.runId, hw.getRun hmem']
      · exact (isRoot_progress hp).2 (hroot.isRoot (fun _ _ _ hk => hk) hw)
      · rw [hp.runId, hasks]

theorem once_signed_commit {r : Request} {ws : List Write} (hw : OnceSigned cfg w)
    (hanew : SignsAnew cfg r ws w) (h : Commits cfg (OnceSigned cfg) Kin r.call held ws w) :
    OnceSigned cfg (db.view w ws) := by
  have hsane := h.sane kin_undisturbed (fun _ ho => ho.sane) hw.sane
  rcases h.cases with ⟨front, o, rfl, hopens⟩ | hstill
  · refine ⟨hsane, ?_, ?_⟩
    · rw [o.view hopens.thread.front]
      intro x hx res hres
      rcases List.mem_append.1 hx with hx | hx
      · exact hw.verified x hx res hres
      · cases List.mem_singleton.1 hx
        exact (hopens.resolution hw.sane hres).1
    · rw [o.view hopens.thread.front]
      refine List.pairwise_append.2 ⟨hw.apart, List.pairwise_singleton _ _, ?_⟩
      intro x hx y hy res res' hres hres' hsigner
      cases List.mem_singleton.1 hy
      obtain ⟨-, asked, hasked, hroot, hasks⟩ := hopens.resolution hw.sane hres'
      have hnew := hanew.2 o.row o.opening asked res'
        (List.mem_append_right _ List.mem_cons_self) hasked hres' res'.root hroot x hx res hres hsigner
      rw [hasks] at hnew
      exact hnew
  · exact hw.still hstill

end Commit

theorem once_signed_promises : Server.Promises db (program cfg) outside (OnceSigned cfg) Kin
    (fun r => Commits cfg (OnceSigned cfg) Kin r.call) where
  refl := kin_steady.refl
  trans := kin_steady.trans
  outside w e w' hw h := by
    have hstill := still_outside hw.sane h
    exact ⟨hw.still hstill, hstill.kin⟩
  program r w := wp_program kin_steady r w

/-- **Main result.**  Where a signature is over one thing, and every resolution is for a
pause that is new to its signer, no proof has opened two runs. -/
theorem resolution_single_use
    (hbinds : ∀ key signature payload payload', cfg.verifySignature key signature payload = true →
      cfg.verifySignature key signature payload' = true → payload = payload') {s : Process}
    (hs : (system cfg Empty).ReachableBy (Server.CommitsOnly (SignsAnew cfg)) s)
    (publicKey signature : String) : (openedWith s.world publicKey signature).length ≤ 1 := by
  have hinv := Server.invariant_of_concurrent once_signed_promises
    (fun r held ws w hw hanew hg => ⟨once_signed_commit hw hanew hg, fun held' hsep =>
      hg.kin hanew.1 fun id hid => hsep _ ⟨id, rfl⟩ hid⟩)
    (Server.allowed_commitsOnly (SignsAnew cfg))
    (fun w hw => ⟨hw.sane, by rw [hw.openings]; exact List.forall_mem_nil _,
      by rw [hw.openings]; exact .nil⟩) hs
  exact hinv.inv.openedWith hbinds publicKey signature

variable (cfg) in
/-- The condition, looked up with as many questions. -/
def signsAnew (questions : Nat) (_ : Request) (ws : List Write) (w : World) : Bool :=
  unforeseen ws w && ws.all fun
    | .newRun _ opening => (opening.answers.bind w.getRun).all fun asked =>
        match (rootOf questions asked).peek w with
        | some (.ok root) => opening.resolution.all fun res => w.openings.all fun o =>
            o.resolution.all fun r => r.signer ≠ res.signer || signedBytes cfg r ≠
              resolvePayload cfg.primitives root (openAsks (w.getRunEvents asked.runId))
        | _ => false
    | _ => true

theorem signsAnew_ok {questions : Nat} {r : Request} {ws : List Write} {w : World}
    (h : signsAnew cfg questions r ws w = true) : SignsAnew cfg r ws w := by
  obtain ⟨hun, hall⟩ := Bool.and_eq_true_iff.1 h
  refine ⟨hun, fun row opening asked res hmem hasked hres root hroot o ho r hr hsigner => ?_⟩
  have hcond := List.all_eq_true.1 hall _ hmem
  simp only [hasked, Option.all_some] at hcond
  split at hcond
  · rename_i root' hpeek
    cases hroot.unique ⟨questions, hpeek⟩
    simp only [hres, Option.all_some, List.all_eq_true] at hcond
    have hr' := hcond o ho
    rw [hr, Option.all_some] at hr'
    simpa [hsigner] using hr'
  · cases hcond

namespace Demo

theorem config_binds (key signature payload payload' : String)
    (h : config.verifySignature key signature payload = true)
    (h' : config.verifySignature key signature payload' = true) : payload = payload' := by
  have hsame : sign key payload = sign key payload' :=
    (of_decide_eq_true h).symm.trans (of_decide_eq_true h')
  simpa [sign] using hsame

/-- The answer of `caller`, with a resolution over `asks`. -/
def resumes (runId messageId : String) (asks : List String) : Move Request Outside :=
  calls (.resumeRun runId (saying messageId
    [("forwardedProps", .obj (bag (oneHop "caller") ++ resolution "caller" asks))]) (some "caller"))

/-- A run is answered, and so is the answer, which asks under the id `second`; the
proof is over `asks`. -/
def pausedTwice (second : String) (asks : List String) : List (Move Request Outside) :=
  paused (chained "caller") (some "caller") ++
  [resumes "r0" "m1" ["i"]] ++ advances 1 ["", "", "", "", "", "", "r1", "", "", "", ""] ++
  Demo.asks "r1" [second] ++
  [resumes "r1" "m2" asks] ++ advances 2 ["", "", "", "", "", "", "", "r2", "", "", "", ""]

/-- The signature of the first answer. -/
def firstSignature : String := sign "caller" (resolvePayload Plain.primitives "r0" ["i"])

end Demo

/-- Two pauses, two proofs. -/
theorem resolution_single_use_pausedTwice :
    (∀ key signature payload payload', Demo.config.verifySignature key signature payload = true →
        Demo.config.verifySignature key signature payload' = true → payload = payload') ∧
      (system Demo.config Empty).ReachableBy (Server.CommitsOnly (SignsAnew Demo.config))
        (Demo.after (Demo.pausedTwice "j" ["j"])) ∧
      (Demo.after (Demo.pausedTwice "j" ["j"])).world.openings.map
        (fun o => o.resolution.map Resolution.asks) = [none, some ["i"], some ["j"]] ∧
      (openedWith (Demo.after (Demo.pausedTwice "j" ["j"])).world "caller"
        Demo.firstSignature).length ≤ 1 := by
  have hrun : (system Demo.config Empty).allows
        (fun s a => s.commitsAs (signsAnew Demo.config 3) a) Demo.start
          (Demo.pausedTwice "j" ["j"]) = true ∧
      (Demo.after (Demo.pausedTwice "j" ["j"])).world.openings.map
        (fun o => o.resolution.map Resolution.asks) = [none, some ["i"], some ["j"]] := by
    decide +kernel
  have hreach : (system Demo.config Empty).ReachableBy (Server.CommitsOnly (SignsAnew Demo.config))
      (Demo.after (Demo.pausedTwice "j" ["j"])) :=
    System.ReachableBy.runFrom
      (fun _ _ h => Server.commitsOnly_of_commitsAs (fun _ _ _ => signsAnew_ok) h)
      (.init Demo.start_init) hrun.1
  exact ⟨Demo.config_binds, hreach, hrun.2,
    resolution_single_use Demo.config_binds hreach "caller" Demo.firstSignature⟩

/-- Two pauses under one id, one proof. -/
theorem one_proof_two_answers :
    (system Demo.config Empty).Reachable (Demo.after (Demo.pausedTwice "i" ["i"])) ∧
      (openedWith (Demo.after (Demo.pausedTwice "i" ["i"])).world "caller"
        Demo.firstSignature).map (fun o => (o.answers, o.handed.runId)) =
        [(some "r0", "r1"), (some "r1", "r2")] :=
  ⟨Demo.after_reachable _, by decide +kernel⟩

end Funduq.Doors
