import Rumahl.Operations.Agreement
import Rumahl.Sqlite.DatabaseCompensation
import Rumahl.Packages.Sign
import Rumahl.Packages.Importer
import Rumahl.Accounts.Throttling
import Rumahl.Accounts.PasswordChange
import Rumahl.Oidc.Revocation
import Rumahl.Oidc.Registrar
import Rumahl.Accounts.AccountLoads
import Rumahl.Sqlite.FileSizes
import Rumahl.Sqlite.DatabaseDirectories
import Rumahl.Runtime.SecretDelivery
import Rumahl.Host.Logins
import Rumahl.Core.Authorization
import Rumahl.Core.Versions
import Rumahl.Operations.CompensationOrder
import Rumahl.Sqlite.Restoring
import Rumahl.Sqlite.Secrets
import Rumahl.Sqlite.AuditLog
import Rumahl.Core.Installing
import Rumahl.Web.StreamProxy
import Rumahl.Data.Retention
import Rumahl.Host.Retention
import Rumahl.Host.Scheduling
import Rumahl.Host.Filesystems
