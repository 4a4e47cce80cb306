import Mathlib.FieldTheory.Finite.Basic
import Mathlib.NumberTheory.LucasLehmer
import UpdateSeal.Host
import UpdateSeal.Proofs.Armour
import UpdateSeal.Proofs.Documents

/-!
# Key pairs

The numbers of a private key are checked when it is read. Where its two factors are prime, what is
checked makes the transforms of the two halves undo each other.
-/

namespace UpdateSeal

namespace Rsa

/-- Raising to a power that leaves one behind multiples of `p - 1` changes nothing modulo `p`. -/
theorem pow_modEq_self {p k : Nat} (hp : p.Prime) (hk : k ≡ 1 [MOD p - 1]) (hpos : k ≠ 0) (m : Nat) :
    m ^ k ≡ m [MOD p] := by
  by_cases hm : p ∣ m
  · have hzero : m ≡ 0 [MOD p] := (Nat.modEq_zero_iff_dvd).2 hm
    exact ((hzero.pow k).trans (by rw [zero_pow hpos])).trans hzero.symm
  · have hcoprime : m.Coprime p := ((Nat.Prime.coprime_iff_not_dvd hp).2 hm).symm
    obtain ⟨j, hj⟩ := (Nat.modEq_iff_dvd' (Nat.one_le_iff_ne_zero.2 hpos)).1 hk.symm
    have hsplit : k = (p - 1) * j + 1 := by omega
    have hunit : m ^ (p - 1) ≡ 1 [MOD p] := by
      have h := Nat.ModEq.pow_totient hcoprime
      rwa [Nat.totient_prime hp] at h
    calc
      m ^ k = (m ^ (p - 1)) ^ j * m := by rw [hsplit, pow_succ, pow_mul]
      _ ≡ 1 ^ j * m [MOD p] := (hunit.pow j).mul_right m
      _ = m := by rw [one_pow, one_mul]

/-- What the numbers of a key with two prime factors are checked for makes its transforms undo each
other. -/
theorem inverts_of_consistent {n e d p q dp dq qInv : Nat}
    (h : consistent n e d p q dp dq qInv = true) (hp : p.Prime) (hq : q.Prime) :
    PrivateKey.Inverts ⟨n, e, d⟩ := by
  simp only [consistent, Bool.and_eq_true, beq_iff_eq, decide_eq_true_eq] at h
  obtain ⟨⟨⟨⟨⟨-, rfl⟩, hed⟩, -⟩, -⟩, hqInv⟩ := h
  have hed : d * e ≡ 1 [MOD Nat.lcm (p - 1) (q - 1)] := hed
  have hne : p ≠ q := by
    rintro rfl
    simp at hqInv
  have hpos : d * e ≠ 0 := by
    intro hzero
    have hone : Nat.lcm (p - 1) (q - 1) = 1 := by
      rw [hzero] at hed
      exact Nat.dvd_one.1 ((Nat.modEq_iff_dvd' (Nat.zero_le 1)).1 hed)
    have hp1 : p - 1 = 1 := Nat.dvd_one.1 ((Nat.dvd_lcm_left _ _).trans hone.dvd)
    have hq1 : q - 1 = 1 := Nat.dvd_one.1 ((Nat.dvd_lcm_right _ _).trans hone.dvd)
    omega
  intro m hm
  have hp' : m ^ (d * e) ≡ m [MOD p] :=
    pow_modEq_self hp (hed.of_dvd (Nat.dvd_lcm_left _ _)) hpos m
  have hq' : m ^ (d * e) ≡ m [MOD q] :=
    pow_modEq_self hq (hed.of_dvd (Nat.dvd_lcm_right _ _)) hpos m
  have hn := (Nat.modEq_and_modEq_iff_modEq_mul ((Nat.coprime_primes hp hq).2 hne)).1 ⟨hp', hq'⟩
  show (m ^ d) ^ e % (p * q) = m
  rw [← pow_mul]
  exact Eq.trans hn (Nat.mod_eq_of_lt hm)
end Rsa

namespace Der

/-- Writes an element with its length in the shortest form. -/
def write (tag : UInt8) (content : Bytes) : Bytes :=
  let n := content.length
  let length : Bytes :=
    if n < 0x80 then [UInt8.ofNat n]
    else if n < 0x100 then [0x81, UInt8.ofNat n]
    else 0x82 :: Bytes.ofNat 2 n
  tag :: length ++ content

/-- Writes a number, with a zero in front of a byte that would look like a sign. -/
def writeNumber (n : Nat) : Bytes := write integerTag (Bytes.ofNat (Rsa.bitLength n / 8 + 1) n)

def writeNumbers (ns : List Nat) : Bytes := write sequenceTag (ns.flatMap writeNumber)

theorem writeNumbers_ne_nil (ns : List Nat) : writeNumbers ns ≠ [] := by
  simp [writeNumbers, write]

end Der

namespace KeyDocument

variable {ns : List Nat}

theorem privateKey?_write {key : Rsa.PrivateKey}
    (h : privateNumbers? (Der.writeNumbers ns) = some key) :
    privateKey? (Pem.write "RSA PRIVATE KEY" (Der.writeNumbers ns)) = some (.rsa key) := by
  obtain ⟨-, hall⟩ := Pem.read_write (show "RSA PRIVATE KEY" ≠ "" by decide)
    (show 45 ∉ Bytes.ofText "RSA PRIVATE KEY" by decide +kernel) (Der.writeNumbers_ne_nil ns)
  rw [privateKey?, hall]
  simp [privateLabels, h]

theorem publicKey?_write {key : Rsa.PublicKey}
    (h : publicNumbers? (Der.writeNumbers ns) = some key) :
    publicKey? (Pem.write "RSA PUBLIC KEY" (Der.writeNumbers ns)) = some (.rsa key) := by
  obtain ⟨hfirst, -⟩ := Pem.read_write (show "RSA PUBLIC KEY" ≠ "" by decide)
    (show 45 ∉ Bytes.ofText "RSA PUBLIC KEY" by decide +kernel) (Der.writeNumbers_ne_nil ns)
  rw [publicKey?, hfirst]
  simp [h]

end KeyDocument

namespace Sample

/-- A key whose factors are Mersenne primes. -/
def modulus : Nat := (2 ^ 607 - 1) * (2 ^ 521 - 1)

def exponent : Nat :=
  605327912889444170327513319668164747355774695087841534152647160144609956418166879951159049880506184423976997215909342354349801904453580889971084860817387262171115101507698207318818864259878721433965820587619025478940692420715031403637011302734184867872084098888889829928906714363207124190963731180684710838173645049230833034380960000398593

def inverse : Nat :=
  514004509177516547118956329143188918710271072477188986573875728230568309757358959061204033294973031319384800470844968565975567293991355117489696801914714428710357645454928847508010941

def privateKey : Rsa.PrivateKey := ⟨modulus, 257, exponent⟩

def privateNumbers : List Nat :=
  let p := 2 ^ 607 - 1
  let q := 2 ^ 521 - 1
  [0, modulus, 257, exponent, p, q, exponent % (p - 1), exponent % (q - 1), inverse]

def privateFile : Bytes := Pem.write "RSA PRIVATE KEY" (Der.writeNumbers privateNumbers)

def publicFile : Bytes := Pem.write "RSA PUBLIC KEY" (Der.writeNumbers [modulus, 257])

theorem consistent :
    Rsa.consistent modulus 257 exponent (mersenne 607) (mersenne 521) (exponent % (2 ^ 607 - 2))
      (exponent % (2 ^ 521 - 2)) inverse = true := by
  decide +kernel

theorem inverts : privateKey.Inverts :=
  Rsa.inverts_of_consistent consistent (lucas_lehmer_sufficiency 607 (by norm_num) (by norm_num))
    (lucas_lehmer_sufficiency 521 (by norm_num) (by norm_num))

theorem canTransform : privateKey.publicHalf.canTransform := by decide +kernel

theorem privateNumbers?_write :
    KeyDocument.privateNumbers? (Der.writeNumbers privateNumbers) = some privateKey := by
  decide +kernel

theorem publicNumbers?_write :
    KeyDocument.publicNumbers? (Der.writeNumbers [modulus, 257]) = some privateKey.publicHalf := by
  decide +kernel

theorem privateKey?_privateFile : KeyDocument.privateKey? privateFile = some (.rsa privateKey) :=
  KeyDocument.privateKey?_write privateNumbers?_write

theorem publicKey?_publicFile :
    KeyDocument.publicKey? publicFile = some (.rsa privateKey.publicHalf) :=
  KeyDocument.publicKey?_write publicNumbers?_write

/-- A host with a payload file and the files of both halves of the key. -/
def host (payload : Bytes) : Host :=
  { files := ⟨[(["payload"], .file payload FileTree.plainMode),
      (["key"], .file privateFile FileTree.plainMode),
      (["public"], .file publicFile FileTree.plainMode)]⟩ }

end Sample

end UpdateSeal
