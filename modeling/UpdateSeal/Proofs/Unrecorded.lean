import UpdateSeal.Proofs.Lifecycles
import UpdateSeal.Proofs.RecordedWork

/-!
# Output without a record

The output of an operation is written first and recorded then. So an operation that returns has added
its entry to the ledger, and one that fails has changed no file, unless it is the record that failed:
then the output stays, and the ledger does not know of it. This is what happens wherever the output
lies below the ledger, as writing it makes a directory in the place of the ledger file.
-/

namespace UpdateSeal

open UpdateSeal.Action

theorem Ledger.contentOf_singleton (e : Entry) :
    contentOf [e] = Bytes.ofText (String.ofList (e.line ++ ['\n'])) := by
  have hempty : contentOf [] = [] := rfl
  have hline := contentOf_append [] e
  rwa [hempty, List.nil_append, List.nil_append] at hline

/-- What the operation `x` with the given name, whose work writes `out` and whose record holds these
texts, leaves of its output and of its record. -/
structure Accounts {α β : Type} (x : Auditing β) (work : Action α) (name : String)
    (texts : α → List LooseText) (out : Path) : Prop where
  /-- Where it returns, the ledger has gained its entry. Before that, work changed the ledger file
  only if that is the output. -/
  returned : ∀ {l h r sink h'}, runOn (x.run (.audit l)) h = (.ok (r, sink), h') →
    ∃ c h₁ e, runOn work h = (.ok c, h₁) ∧ e.operation = name ∧
      h'.contentOf l.path = some ((h₁.contentOf l.path).getD [] ++ Ledger.contentOf [e]) ∧
      (h.placeOf l.path ≠ h.placeOf out → h₁.contentOf l.path = h.contentOf l.path)
  /-- Where it fails, no file has changed, or the work was done and could not be recorded. -/
  raised : ∀ {l h e h'}, runOn (x.run (.audit l)) h = (.error e, h') →
    (∀ place, h'.files.contentAt place = h.files.contentAt place) ∨
      ∃ c h₁, runOn work h = (.ok c, h₁) ∧ ¬ (Sink.audit l).CanRecord (texts c) h₁ ∧
        l.GivesUp h₁ h'
  /-- Work that was done and cannot be recorded is left as it is. -/
  unrecorded : ∀ {l h c h₁}, runOn work h = (.ok c, h₁) →
    ¬ (Sink.audit l).CanRecord (texts c) h₁ →
      ∃ e h', runOn (x.run (.audit l)) h = (.error e, h') ∧ l.GivesUp h₁ h'
  /-- Work whose output lies below the ledger cannot be recorded. -/
  below : ∀ {l : Ledger} {h c h₁}, runOn work h = (.ok c, h₁) →
    out.LeadsPast h.workingDirectory (h.placeOf l.path) → ¬ h₁.Admits l.path

namespace Operation

variable {α β : Type} {o : Operation α β} {out : Path}

theorem accounts
    (htouches : ∀ base, Touches base (· = out.placeFrom base) (out.LeadsThrough base) o.work)
    (hclean : ∀ h, FailsClean (out.LeadsThrough h.workingDirectory) h o.work)
    (hwritten : ∀ {h c h₁}, runOn o.work h = (.ok c, h₁) → ∃ b, h₁.Holds out b) :
    Accounts o.run o.work o.name (fun c => o.inputs ++ o.outputs c) out := by
  constructor
  case returned =>
    intro l h r sink h' hr
    rcases cases hr with ⟨e, he, -⟩ | ⟨c, h₁, hwork, ⟨e, he, -⟩ | ⟨_, _, l', e, -, -, -, hlog⟩⟩
    · cases he
    · cases he
    · obtain ⟨he, -, place, b, t, hl, hc, hputs, rfl⟩ := Ledger.runOn_log_eq_ok hlog
      have hname : e.operation = o.name := he ▸ rfl
      have hholds : ({ h₁ with now := h₁.now + h₁.clockStep, files := t } : Host).Holds l.path
        (b ++ Bytes.ofText (String.ofList (e.line ++ ['\n']))) := hputs.read
      refine ⟨c, h₁, e, hwork, hname, ?_, fun hne => ?_⟩
      · rw [Host.contentOf_of_holds hholds, Host.contentOf, Host.placeOf_of_locate hl,
          hc.getD_contentAt, Ledger.contentOf_singleton]
      · exact ((htouches _).changes hwork).contentOf_eq hne
  case raised =>
    intro l h e h' hr
    rcases cases hr with ⟨e, -, hwork⟩ | ⟨c, h₁, hwork, ⟨e, -, hgives⟩ | ⟨_, _, l', e, he, -⟩⟩
    · exact .inl fun place => (hclean h e h' hwork).contentAt_eq not_false
    · exact .inr ⟨c, h₁, hwork, hgives⟩
    · cases he
  case unrecorded =>
    intro l h c h₁ hwork hcan
    exact Operation.unrecorded hwork hcan
  case below =>
    intro l h c h₁ hwork hpast hadmits
    have hc := (htouches h.workingDirectory).changes hwork
    obtain ⟨b, hb⟩ := hwritten hwork
    obtain ⟨place, mode, hl, -⟩ := FileTree.read_eq_ok_iff.1 hb
    obtain ⟨place', hl', hn⟩ := hadmits
    rw [Host.placeOf, ← hc.workingDirectory, ← Host.placeOf, Host.placeOf_of_locate hl'] at hpast
    exact hn (FileTree.isDirectory_of_leadsPast hl hpast)

end Operation

namespace Sign

variable {t : Toolkit} {path out : Path} {keys : List Path} {S M : Option Bytes} {h h₁ : Host}

theorem holds_of_signFile {r : HashSet × Bytes}
    (hr : runOn (signFile t path keys out) h = (.ok r, h₁)) : ∃ b, h₁.Holds out b := by
  obtain ⟨M, l, h₂, log, -, hembed, rfl⟩ := exists_of_signFile hr
  have hholds := PayloadFile.holds_of_embedSignatures hembed
  exact hholds

theorem holds_of_embedContainers {l : Layout}
    (hr : runOn (embedContainers path S M out) h = (.ok l, h₁)) : ∃ b, h₁.Holds out b := by
  obtain ⟨-, -, hembed⟩ := runOn_embedContainers_eq_ok.1 hr
  obtain ⟨s, rfl⟩ := PayloadFile.some_of_embedSignatures hembed
  exact PayloadFile.holds_of_embedSignatures hembed

/-- Signing a payload and embedding the containers of an offline signer, with a ledger: a call that
returns has recorded its output, and a call that fails has changed no file or leaves its output
unrecorded. The latter is so exactly if the payload was written and the record cannot be, and always
if the output lies below the ledger. -/
theorem output_accounts (t : Toolkit) (path : Path) (keys : List Path) (out : Path)
    (S M : Option Bytes) :
    Accounts (signPayload t path keys out) (signFile t path keys out) "sign_payload"
        (fun c => signingTexts path keys out c.1) out ∧
      Accounts (addSignatures path S M out) (embedContainers path S M out) "embed_signatures"
        (fun _ => [path.spelling, out.spelling]) out := by
  constructor
  · rw [signPayload_eq]
    exact Operation.accounts (fun _ => touches_signFile) (fun _ => failsClean_signFile)
      holds_of_signFile
  · rw [addSignatures_eq]
    exact Operation.accounts (fun _ => touches_embedContainers) (fun _ => failsClean_embedContainers)
      holds_of_embedContainers

end Sign

/-! ### A small payload -/

namespace Lifecycle

/-- Signatures are embedded below the ledger: the output is there, and there is no ledger. -/
theorem small_unrecorded :
    ∃ out container e h',
      runOn ((Sign.addSignatures ⟨false, ["payload"]⟩ (some container) none out).run
        (.audit ⟨Ledger.ledgerPath, [7], {}⟩)) (writtenHost (Layout.smallPayload 0)) =
          (.error e, h') ∧
      (writtenHost (Layout.smallPayload 0)).contentOf out = none ∧
      (∃ b, h'.contentOf out = some b) ∧ h'.contentOf Ledger.ledgerPath = none := by
  have hlength : (Container.encode [⟨1, [42]⟩]).length = 7 := by decide +kernel
  obtain ⟨l, h₁, hembed⟩ := embed_small hlength ⟨false, ["ledger", "signed"]⟩ (fun _ _ => ⟨_, rfl⟩) []
  have hcontainer : Sign.checkContainer "payload" (some (Container.encode [⟨1, [42]⟩])) = .ok () := by
    have hfits : ∀ s ∈ [(⟨1, [42]⟩ : Signature)], s.data.Addressable := by simp [Bytes.Addressable]
    simp only [Sign.checkContainer, Container.decode_encode_of_addressable hfits, ok_bind]
    rfl
  have hwork := Sign.runOn_embedContainers_eq_ok.2 ⟨hcontainer, rfl, hembed⟩
  obtain ⟨-, haccounts⟩ := Sign.output_accounts {} ⟨false, ["payload"]⟩ []
    ⟨false, ["ledger", "signed"]⟩ (some (Container.encode [⟨1, [42]⟩])) none
  have hbelow := haccounts.below (l := ⟨Ledger.ledgerPath, [7], {}⟩) hwork
    ⟨["ledger"], "signed", List.prefix_rfl, rfl⟩
  obtain ⟨e, h₂, hr, t, -, hsame, rfl⟩ :=
    haccounts.unrecorded hwork fun hcan => hbelow (Sink.canRecord_audit_iff.1 hcan).1
  obtain rfl := hsame hbelow
  obtain ⟨b, hb⟩ := Sign.holds_of_embedContainers hwork
  have hout : ({ h₁ with now := h₁.now + h₁.clockStep } : Host).contentOf
      ⟨false, ["ledger", "signed"]⟩ = some b :=
    Host.contentOf_of_holds hb
  have hc : Host.Changes _ _ (writtenHost (Layout.smallPayload 0)) h₁ :=
    Sign.touches_embedContainers.changes hwork
  have hledger : ({ h₁ with now := h₁.now + h₁.clockStep } : Host).contentOf Ledger.ledgerPath =
      none :=
    hc.contentOf_eq (p := Ledger.ledgerPath) (by decide)
  exact ⟨_, _, e, _, hr, rfl, ⟨b, hout⟩, hledger⟩

end Lifecycle

end UpdateSeal
