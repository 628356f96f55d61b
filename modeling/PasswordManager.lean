import PasswordManager.Transition.Basic
import PasswordManager.Dictionary.Basic
import PasswordManager.Dictionary.Replay
import PasswordManager.Json.Basic
import PasswordManager.Base64.Basic
import PasswordManager.Base64.Lemmas
import PasswordManager.Regex.Basic
import PasswordManager.Unicode.Basic
import PasswordManager.Sha256.Basic
import PasswordManager.Platform
import PasswordManager.Platform.Reference
import PasswordManager.Extensions.StringExtensions
import PasswordManager.Models.AuthenticatedUser
import PasswordManager.Models.Authentication
import PasswordManager.Models.Credential
import PasswordManager.Models.CredentialLemmas
import PasswordManager.ViewController.Window
import PasswordManager.ViewController.EditCredentialsViewController
import PasswordManager.ViewController.ListViewController
import PasswordManager.ViewController.ListViewControllerLemmas
import PasswordManager.App.Basic
import PasswordManager.App.Lemmas
import PasswordManager.App.Queries
import PasswordManager.App.Alignment
import PasswordManager.App.TableSafety
import PasswordManager.App.Loading
import PasswordManager.App.Session
import PasswordManager.App.Blocking
import PasswordManager.Vault.Basic
import PasswordManager.Vault.Refinement
import PasswordManager.Vault.RoundTrip
import PasswordManager.Vault.Keys
import PasswordManager.Vault.Overwriting
import PasswordManager.Vault.Disclosure
import PasswordManager.App.Accounts
import PasswordManager.App.Navigation
import PasswordManager.App.Overlays
import PasswordManager.App.PasswordChange
import PasswordManager.Extensions.EmailPattern
import PasswordManager.Extensions.SearchRange
import PasswordManager.Models.PartialDecryption
import PasswordManager.Models.Validation
import PasswordManager.Vault.EditorSession
import PasswordManager.Vault.Isolation
import PasswordManager.Dictionary.Registry
import PasswordManager.Vault.StoredRecords
import PasswordManager.ViewController.FormButtons
import PasswordManager.App.Observers
import PasswordManager.Streaming.Basic
import PasswordManager.RNCryptor.CommonCrypto
import PasswordManager.RNCryptor.Basic
import PasswordManager.RNCryptor.Lemmas
import PasswordManager.RNCryptor.Format
import PasswordManager.RNCryptor.Decryption
import PasswordManager.RNCryptor.RoundTrip
import PasswordManager.Platform.V3
import PasswordManager.PwGen.Basic
import PasswordManager.PwGen.Lemmas
import PasswordManager.PwGen.Regenerate
import PasswordManager.SortedEntries.Basic
import PasswordManager.SortedDictionary.FLLRBNode
import PasswordManager.SortedDictionary.Balance
import PasswordManager.SortedDictionary.Entries
import PasswordManager.SortedDictionary.Removal
import PasswordManager.SortedDictionary.FTreeSortedDictionary
import PasswordManager.SortedDictionary.Builder
import PasswordManager.SortedDictionary.FImmutableSortedDictionary
import PasswordManager.SortedDictionary.Refinement
import PasswordManager.SortedDictionary.Runs
import PasswordManager.SortedDictionary.Enumerators
import PasswordManager.PathMaps.Basic
import PasswordManager.PathMaps.Rebase
import PasswordManager.Database.FUtilities
import PasswordManager.Database.FPath
import PasswordManager.Database.FSnapshotUtilities
import PasswordManager.Database.FImmutableTree
import PasswordManager.Database.FImmutableTreeLemmas
import PasswordManager.Database.FCompoundWrite
import PasswordManager.Database.FWriteTree
import PasswordManager.Database.Layering
import PasswordManager.Database.FSnapshot
import PasswordManager.Database.FSnapshotLemmas
import PasswordManager.Database.PendingWrites
import PasswordManager.Database.AppliedWrites
import PasswordManager.Database.EventCache
import PasswordManager.Database.FViewProcessor
import PasswordManager.Database.FSyncTree
import PasswordManager.Database.ChildChanges
import PasswordManager.Database.ViewSteps
import PasswordManager.Database.SyncSteps
import PasswordManager.Database.OptimisticView
