import RootkeyCrypto.Account.Baseline
import RootkeyCrypto.Account.Coverage
import RootkeyCrypto.Account.Formats
import RootkeyCrypto.Account.Generations
import RootkeyCrypto.Account.Lifetime
import RootkeyCrypto.Account.Reset
import RootkeyCrypto.Account.RootKey
import RootkeyCrypto.Account.Rotation
import RootkeyCrypto.Account.TypedKey
import RootkeyCrypto.Account.Uniform
import RootkeyCrypto.Account.Versions
import RootkeyCrypto.Vault.Lifetime
import RootkeyCrypto.Vault.Rewrap
import RootkeyCrypto.Vault.Rotation
import RootkeyCrypto.Vault.Sessions
import RootkeyCrypto.Vault.Splice
import RootkeyCrypto.World.Backups
import RootkeyCrypto.World.Forged
import RootkeyCrypto.World.Identity
import RootkeyCrypto.World.Leaks
import RootkeyCrypto.World.Provenance
import RootkeyCrypto.World.Random
import RootkeyCrypto.World.Rekey
import RootkeyCrypto.Shared.Epochs
import RootkeyCrypto.Shared.Fingerprint
import RootkeyCrypto.Shared.Items
import RootkeyCrypto.Shared.Members
import RootkeyCrypto.Shared.Revocation
import RootkeyCrypto.Shared.Wraps
import RootkeyCrypto.Share.Base32
import RootkeyCrypto.Share.Envelope
